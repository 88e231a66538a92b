import Mathlib.Tactic.SplitIfs
import LatencyLog.Proofs.Json.Numeral

/-! # Number literals begun

What the characters of a number are, given the literal that they have come to.

* `Json.Mantissa`: the digits on both sides of the point, after the first digit.
* `Json.Tail`: the characters after the first digit, by the part of the literal that they reach.
* `Json.Literal.Holds`: a minus sign alone, or a first digit and the tail after it.
* `Json.Literal.holds_step`: one more character keeps this.
* `Json.Literal.exists_numeral`: a literal that has a number is a numeral that denotes it.
-/

namespace LatencyLog.Json

set_option autoImplicit false

open Text

/-! ## Tails -/

/-- The digits after the first one, with a point among them or not. -/
inductive Mantissa (lead : Fin 10) : List Char → Prop where
  | whole {digits : List (Fin 10)} (h : lead = 0 → digits = []) :
      Mantissa lead (digits.map digitChar)
  | fraction {digits more : List (Fin 10)} (h : lead = 0 → digits = []) (nonempty : more ≠ []) :
      Mantissa lead (digits.map digitChar ++ '.' :: more.map digitChar)

def IsMark (c : Char) : Prop := c = 'e' ∨ c = 'E'

inductive Tail (lead : Fin 10) : Part → List Char → Prop where
  | zero (h : lead = 0) : Tail lead .zero []
  | whole (h : lead ≠ 0) (digits : List (Fin 10)) : Tail lead .whole (digits.map digitChar)
  | wholeDropped (h : lead ≠ 0) (digits : List (Fin 10)) :
      Tail lead .wholeDropped (digits.map digitChar)
  | point {digits : List (Fin 10)} (h : lead = 0 → digits = []) :
      Tail lead .point (digits.map digitChar ++ ['.'])
  | fraction {digits more : List (Fin 10)} (h : lead = 0 → digits = []) (nonempty : more ≠ []) :
      Tail lead .fraction (digits.map digitChar ++ '.' :: more.map digitChar)
  | fractionDropped {digits more : List (Fin 10)} (h : lead = 0 → digits = [])
      (nonempty : more ≠ []) :
      Tail lead .fractionDropped (digits.map digitChar ++ '.' :: more.map digitChar)
  | mark {mantissa : List Char} {c : Char} (h : Mantissa lead mantissa) (hc : IsMark c) :
      Tail lead .mark (mantissa ++ [c])
  | markSign {mantissa : List Char} {c : Char} (h : Mantissa lead mantissa) (hc : IsMark c)
      (negative : Bool) :
      Tail lead (.markSign negative) (mantissa ++ [c, if negative then '-' else '+'])
  | power {mantissa : List Char} (h : Mantissa lead mantissa) (p : Power) (value : Nat) :
      Tail lead (.power p.isNegative value) (mantissa ++ p.text)
  | vanished {mantissa : List Char} (h : Mantissa lead mantissa) (p : Power) :
      Tail lead .vanished (mantissa ++ p.text)

/-! ## Powers -/

theorem exists_power {c : Char} (hc : IsMark c) (sign : Option Bool) (d : Fin 10) :
    ∃ p : Power, p.isNegative = sign.getD false ∧
      p.text = c :: ((match sign with
        | none => []
        | some negative => [if negative then '-' else '+']) ++ [digitChar d]) := by
  rcases hc with rfl | rfl
  · exact ⟨⟨false, sign, d, []⟩, rfl, rfl⟩
  · exact ⟨⟨true, sign, d, []⟩, rfl, rfl⟩

theorem exists_power_longer (p : Power) (d : Fin 10) :
    ∃ q : Power, q.isNegative = p.isNegative ∧ q.text = p.text ++ [digitChar d] := by
  refine ⟨{ p with digits := p.digits ++ [d] }, rfl, ?_⟩
  show Power.mark p :: (Power.signText p ++ (p.lead :: (p.digits ++ [d])).map digitChar) = _
  simp [Power.text]

namespace Literal

variable {lead : Fin 10} {l m : Literal} {cs : List Char} {c : Char}

theorem part_of_powerDigit {negative : Bool} {value d : Nat}
    (h : l.powerDigit negative value d = .ok m) :
    m.part = .power negative (value * 10 + d) ∨ m.part = .vanished := by
  unfold powerDigit at h
  split_ifs at h
  · cases h
    exact Or.inl rfl
  · cases h
    exact Or.inr rfl

theorem tail_of_powerDigit {mantissa : List Char} {negative : Bool} {value d : Nat}
    (h : Mantissa lead mantissa) (p : Power) (sign : p.isNegative = negative)
    (read : (l.powerDigit negative value d).map some = .ok (some m)) :
    Tail lead m.part (mantissa ++ p.text) := by
  cases result : l.powerDigit negative value d with
  | error halt =>
    rw [result] at read
    cases read
  | ok next =>
    rw [result] at read
    have same : next = m := Option.some.inj (Except.ok.inj read)
    subst same
    rcases part_of_powerDigit result with part | part
    · rw [part, ← sign]
      exact .power h p _
    · rw [part]
      exact .vanished h p

/-! ## One more character -/

theorem tail_of_afterWhole {digits : List (Fin 10)} (h : lead = 0 → digits = [])
    (read : l.afterWhole c = some m) : Tail lead m.part (digits.map digitChar ++ [c]) := by
  unfold afterWhole at read
  split_ifs at read with point mark
  · cases read
    subst point
    exact .point h
  · cases read
    exact .mark (.whole h) mark

theorem tail_of_afterFraction {digits more : List (Fin 10)} (h : lead = 0 → digits = [])
    (nonempty : more ≠ []) (read : l.afterFraction c = some m) :
    Tail lead m.part (digits.map digitChar ++ '.' :: more.map digitChar ++ [c]) := by
  unfold afterFraction at read
  split_ifs at read with mark
  cases read
  exact .mark (.fraction h nonempty) mark

theorem tail_of_fractionDigit {digits : List (Fin 10)} (h : lead = 0 → digits = [])
    (more : List (Fin 10)) (d : Fin 10) :
    Tail lead (l.fractionDigit d).part
      (digits.map digitChar ++ '.' :: (more ++ [d]).map digitChar) := by
  have nonempty : more ++ [d] ≠ [] := by simp
  unfold fractionDigit
  split
  · exact .fraction h nonempty
  · exact .fractionDropped h nonempty

theorem tail_of_wholeDigit {digits : List (Fin 10)} (h : lead ≠ 0) (whole : l.part = .whole)
    (d : Fin 10) : Tail lead (l.wholeDigit d).part ((digits ++ [d]).map digitChar) := by
  unfold wholeDigit
  split
  · show Tail lead l.part _
    rw [whole]
    exact .whole h _
  · exact .wholeDropped h _

theorem tail_step_digit {d : Fin 10} (h : Tail lead l.part cs)
    (read : l.step (digitChar d) = .ok (some m)) : Tail lead m.part (cs ++ [digitChar d]) := by
  -- The machine looks at the part and at whether the character is a digit, and at nothing else.
  unfold step at read
  rw [digit?_digitChar] at read
  generalize part : l.part = p at h read
  cases h with
  | zero => cases read
  | whole notZero digits =>
    cases read
    rw [← List.map_singleton, ← List.map_append]
    exact tail_of_wholeDigit notZero part d
  | wholeDropped notZero digits =>
    cases read
    rw [← List.map_singleton, ← List.map_append]
    exact .wholeDropped notZero _
  | @point digits zero =>
    cases read
    rw [List.append_assoc]
    exact tail_of_fractionDigit zero [] d
  | @fraction digits more zero _ =>
    cases read
    have longer : Tail lead (l.fractionDigit d).part _ := tail_of_fractionDigit zero more d
    simpa using longer
  | @fractionDropped digits more zero _ =>
    cases read
    rw [part]
    have longer : Tail lead .fractionDropped (_ ++ '.' :: (more ++ [d]).map digitChar) :=
      .fractionDropped zero (by simp)
    simpa using longer
  | mark h hc =>
    obtain ⟨p, sign, text⟩ := exists_power hc none d
    rw [List.append_assoc]
    have longer := tail_of_powerDigit h p sign read
    rwa [text] at longer
  | markSign h hc negative =>
    obtain ⟨p, sign, text⟩ := exists_power hc (some negative) d
    rw [List.append_assoc]
    have longer := tail_of_powerDigit h p sign read
    rwa [text] at longer
  | power h p value =>
    obtain ⟨q, sign, text⟩ := exists_power_longer p d
    rw [List.append_assoc, ← text]
    exact tail_of_powerDigit h q sign read
  | vanished h p =>
    cases read
    obtain ⟨q, -, text⟩ := exists_power_longer p d
    rw [part, List.append_assoc, ← text]
    exact .vanished h q

theorem tail_step_other (h : Tail lead l.part cs) (digit : digit? c = none)
    (read : l.step c = .ok (some m)) : Tail lead m.part (cs ++ [c]) := by
  have onlyZero : lead ≠ 0 → ∀ digits : List (Fin 10), lead = 0 → digits = [] :=
    fun notZero _ zero => absurd zero notZero
  unfold step at read
  rw [digit] at read
  generalize part : l.part = p at h read
  cases h with
  | zero zero =>
    have noDigits : lead = 0 → ([] : List (Fin 10)) = [] := fun _ => rfl
    exact tail_of_afterWhole noDigits (Except.ok.inj read)
  | whole notZero digits => exact tail_of_afterWhole (onlyZero notZero _) (Except.ok.inj read)
  | wholeDropped notZero digits =>
    exact tail_of_afterWhole (onlyZero notZero _) (Except.ok.inj read)
  | point => cases read
  | fraction zero nonempty => exact tail_of_afterFraction zero nonempty (Except.ok.inj read)
  | fractionDropped zero nonempty =>
    exact tail_of_afterFraction zero nonempty (Except.ok.inj read)
  | mark h hc =>
    simp only at read
    rw [List.append_assoc]
    split_ifs at read with plus minus
    · cases read
      rw [plus]
      exact .markSign h hc false
    · cases read
      rw [minus]
      exact .markSign h hc true
  | markSign => cases read
  | power => cases read
  | vanished => cases read

theorem tail_step (h : Tail lead l.part cs) (read : l.step c = .ok (some m)) :
    Tail lead m.part (cs ++ [c]) := by
  cases digit : digit? c with
  | some n =>
    obtain ⟨d, rfl, -⟩ := exists_digitChar_of_digit? digit
    exact tail_step_digit h read
  | none => exact tail_step_other h digit read

/-! ## Literals -/

inductive Holds : Literal → List Char → Prop where
  | minus : Holds .minus ['-']
  | digits {negative : Bool} {lead : Fin 10} {cs : List Char} {l : Literal}
      (run : (firstDigit negative lead).run cs = some l) (h : Tail lead l.part cs) :
      Holds l ((if negative then ['-'] else []) ++ digitChar lead :: cs)

theorem tail_firstDigit (negative : Bool) (lead : Fin 10) :
    Tail lead (firstDigit negative lead).part [] := by
  unfold firstDigit
  by_cases zero : lead = 0
  · rw [if_pos (by rw [zero]; rfl)]
    exact .zero zero
  · have positive : lead.val ≠ 0 := fun h => zero (Fin.ext h)
    rw [if_neg positive]
    exact .whole zero []

theorem holds_firstDigit (negative : Bool) (lead : Fin 10) :
    (firstDigit negative lead).Holds ((if negative then ['-'] else []) ++ [digitChar lead]) :=
  .digits rfl (tail_firstDigit negative lead)

/-- **One more character keeps what the literal holds.** -/
theorem holds_step (h : l.Holds cs) (read : l.step c = .ok (some m)) : m.Holds (cs ++ [c]) := by
  cases h with
  | minus =>
    unfold step at read
    cases digit : digit? c with
    | some n =>
      obtain ⟨d, rfl, rfl⟩ := exists_digitChar_of_digit? digit
      rw [digit] at read
      cases read
      exact holds_firstDigit true d
    | none =>
      rw [digit] at read
      cases read
  | @digits negative lead cs _ run h =>
    rw [List.append_assoc, List.cons_append]
    refine .digits ?_ (tail_step h read)
    rw [run_append, run, Option.bind_some]
    exact run_cons read []

/-! ## Ends -/

theorem canEnd_of_number {x : Number} (h : l.number = .ok x) : canEnd l.part = true := by
  unfold number at h
  generalize l.part = part at h ⊢
  cases part <;> first | rfl | cases h

theorem exists_numeral_of_mantissa {mantissa : List Char} (h : Mantissa lead mantissa)
    (negative : Bool) (power : Option Power) :
    ∃ n : Numeral, n.negative = negative ∧ n.lead = lead ∧
      n.tail = mantissa ++ power.elim [] Power.text := by
  cases h with
  | @whole digits zero =>
    refine ⟨⟨negative, lead, digits, zero, [], power⟩, rfl, rfl, ?_⟩
    cases power <;> simp [Numeral.tail, Numeral.fractionText, Numeral.powerText]
  | @fraction digits more zero nonempty =>
    refine ⟨⟨negative, lead, digits, zero, more, power⟩, rfl, rfl, ?_⟩
    obtain ⟨d, rest, rfl⟩ := List.exists_cons_of_ne_nil nonempty
    cases power <;> simp [Numeral.tail, Numeral.fractionText, Numeral.powerText]

/-- The parts in which a literal may end are the ends of a numeral. -/
theorem exists_numeral_of_tail (negative : Bool) {part : Part} (h : Tail lead part cs)
    (whole : canEnd part = true) :
    ∃ n : Numeral, n.negative = negative ∧ n.lead = lead ∧ n.tail = cs := by
  have plain : ∀ mantissa, Mantissa lead mantissa →
      ∃ n : Numeral, n.negative = negative ∧ n.lead = lead ∧ n.tail = mantissa := by
    intro mantissa h
    obtain ⟨n, sign, first, tail⟩ := exists_numeral_of_mantissa h negative none
    exact ⟨n, sign, first, tail.trans (List.append_nil _)⟩
  cases h with
  | zero => exact plain [] (@Mantissa.whole lead [] fun _ => rfl)
  | whole notZero digits => exact plain _ (.whole fun zero => absurd zero notZero)
  | wholeDropped notZero digits => exact plain _ (.whole fun zero => absurd zero notZero)
  | point => cases whole
  | fraction zero nonempty => exact plain _ (.fraction zero nonempty)
  | fractionDropped zero nonempty => exact plain _ (.fraction zero nonempty)
  | mark => cases whole
  | markSign => cases whole
  | power h p value => exact exists_numeral_of_mantissa h negative (some p)
  | vanished h p => exact exists_numeral_of_mantissa h negative (some p)

/-- **A literal that has a number is a numeral that denotes this number.** -/
theorem exists_numeral (h : l.Holds cs) {x : Number} (number : l.number = .ok x) :
    ∃ n : Numeral, n.text = cs ∧ n.number? = some x := by
  cases h with
  | minus => cases number
  | @digits negative lead cs _ run h =>
    obtain ⟨n, sign, first, tail⟩ := exists_numeral_of_tail negative h (canEnd_of_number number)
    have reached := run_tail n
    rw [sign, first, tail, run] at reached
    refine ⟨n, ?_, ?_⟩
    · rw [Numeral.text, sign, first, tail]
    · rw [n.number?_eq_number, ← reached, Option.bind_some, number]
      rfl

end Literal

end LatencyLog.Json
