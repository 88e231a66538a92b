import LatencyLog.Json.Literal
import LatencyLog.Proofs.Text.Decimal

/-! # Number literals as they are written

* `Json.Numeral`: a number literal, as its sign, its digits and its exponent.
* `Json.Numeral.text`: its characters.
* `Json.Numeral.number?`: the number that it denotes, unless that is out of range. The digits build
  a significand below `2 ^ 64`; those from the first that would pass this bound are left over.
* `Json.Literal.run_tail`: the machine that reads the characters of a numeral ends with the literal
  of its significand, its scale and its exponent.
* `Json.Numeral.number?_eq_number`: the number of that literal is the number of the numeral.
-/

namespace LatencyLog.Json

set_option autoImplicit false

open Text

/-! ## Digits taken into a significand -/

/-- A significand with as many of the digits as it takes, and the digits left over. -/
def absorb (significand : Nat) : List (Fin 10) → Nat × List (Fin 10)
  | [] => (significand, [])
  | d :: digits =>
    match Literal.withDigit? significand d with
    | some s => absorb s digits
    | none => (significand, d :: digits)

theorem absorb_of_some {significand s : Nat} {d : Fin 10}
    (h : Literal.withDigit? significand d = some s) (digits : List (Fin 10)) :
    absorb significand (d :: digits) = absorb s digits := by
  rw [absorb, h]

theorem absorb_of_none {significand : Nat} {d : Fin 10}
    (h : Literal.withDigit? significand d = none) (digits : List (Fin 10)) :
    absorb significand (d :: digits) = (significand, d :: digits) := by
  rw [absorb, h]

theorem length_absorb_le (significand : Nat) (digits : List (Fin 10)) :
    (absorb significand digits).2.length ≤ digits.length := by
  induction digits generalizing significand with
  | nil => exact Nat.le_refl _
  | cons d digits ih =>
    cases room : Literal.withDigit? significand d with
    | none => rw [absorb_of_none room]
    | some s =>
      rw [absorb_of_some room, List.length_cons]
      exact Nat.le_succ_of_le (ih s)

theorem absorb_lt {significand : Nat} (h : significand < 2 ^ 64) (digits : List (Fin 10)) :
    (absorb significand digits).1 < 2 ^ 64 := by
  induction digits generalizing significand with
  | nil => exact h
  | cons d digits ih =>
    cases room : Literal.withDigit? significand d with
    | none =>
      rw [absorb_of_none room]
      exact h
    | some s =>
      rw [absorb_of_some room]
      refine ih ?_
      rw [Literal.withDigit?] at room
      split at room
      · next fits =>
        cases room
        exact fits
      · cases room

/-! ## Numerals -/

structure Power where
  capital : Bool
  /-- Whether a sign stands, and whether it is the minus sign. -/
  sign : Option Bool
  lead : Fin 10
  digits : List (Fin 10)

namespace Power

def mark (p : Power) : Char := if p.capital then 'E' else 'e'

def signText (p : Power) : List Char :=
  match p.sign with
  | none => []
  | some negative => [if negative then '-' else '+']

def text (p : Power) : List Char :=
  p.mark :: (p.signText ++ (p.lead :: p.digits).map digitChar)

def isNegative (p : Power) : Bool := p.sign.getD false

def value (p : Power) : Nat := withDigits 0 (p.lead :: p.digits)

end Power

/-- A number literal. No digit follows a zero that stands first. -/
structure Numeral where
  negative : Bool
  lead : Fin 10
  whole : List (Fin 10)
  whole_eq_nil : lead = 0 → whole = []
  /-- The digits after the point, which is left out where there are none. -/
  fraction : List (Fin 10)
  power : Option Power

namespace Numeral

def fractionText (n : Numeral) : List Char :=
  match n.fraction with
  | [] => []
  | digits => '.' :: digits.map digitChar

def powerText (n : Numeral) : List Char :=
  match n.power with
  | none => []
  | some p => p.text

def tail (n : Numeral) : List Char := n.whole.map digitChar ++ n.fractionText ++ n.powerText

def text (n : Numeral) : List Char :=
  (if n.negative then ['-'] else []) ++ digitChar n.lead :: n.tail

/-! ## The number denoted -/

def wholeSignificand (n : Numeral) : Nat := (absorb n.lead n.whole).1

/-- How many digits before the point are left over. -/
def dropped (n : Numeral) : Nat := (absorb n.lead n.whole).2.length

def significand (n : Numeral) : Nat := (absorb n.wholeSignificand n.fraction).1

/-- How many digits after the point are taken. -/
def places (n : Numeral) : Nat :=
  n.fraction.length - (absorb n.wholeSignificand n.fraction).2.length

/-- The power of ten at which the significand stands before the exponent counts. -/
def scale (n : Numeral) : Int := n.dropped - n.places

def real? (n : Numeral) (exponent : Int) : Option Number :=
  (scaled? n.significand exponent).map fun a => .real (if n.negative then a.neg else a)

/-- The number of a numeral without point and exponent, all of whose digits are taken. -/
def integer (n : Numeral) : Number :=
  if n.negative then
    if 1 ≤ n.significand ∧ n.significand ≤ 2 ^ 63 then .integer (-(n.significand : Int))
    else .real (Binary64.ofInt n.significand).neg
  else .integer n.significand

def number? (n : Numeral) : Option Number :=
  match n.power with
  | none => if n.fraction = [] ∧ n.dropped = 0 then some n.integer else n.real? n.scale
  | some p =>
    if p.value ≤ Literal.maxExponent then
      n.real? (Literal.clampExponent
        (if p.isNegative then n.scale - p.value else n.scale + p.value))
    else if p.isNegative = false ∧ n.significand ≠ 0 then none
    else some (.real (Binary64.zero n.negative))

theorem significand_lt (n : Numeral) : n.significand < 2 ^ 64 :=
  absorb_lt (absorb_lt (by omega) n.whole) n.fraction

theorem real?_ne_integer (n : Numeral) (exponent i : Int) :
    n.real? exponent ≠ some (.integer i) := by
  intro h
  obtain ⟨a, -, same⟩ := Option.map_eq_some_iff.mp h
  cases same

/-- An integer denoted by a numeral has 64 bits, with or without a sign. -/
theorem integer_range_of_number? {n : Numeral} {i : Int} (h : n.number? = some (.integer i)) :
    -2 ^ 63 ≤ i ∧ i < 2 ^ 64 := by
  have bound := n.significand_lt
  rw [number?] at h
  split at h
  · split at h
    · rw [integer] at h
      split at h
      · split at h
        · cases h
          omega
        · cases h
      · cases h
        omega
    · exact absurd h (n.real?_ne_integer _ i)
  · split at h
    · exact absurd h (n.real?_ne_integer _ i)
    · split at h <;> cases h

/-! ## The literal reached -/

def wholePart (n : Numeral) : Part :=
  if n.lead = 0 then .zero else if n.dropped = 0 then .whole else .wholeDropped

def mantissaPart (n : Numeral) : Part :=
  if n.fraction = [] then n.wholePart
  else if (absorb n.wholeSignificand n.fraction).2 = [] then .fraction
  else .fractionDropped

/-- The literal in a part after the digits on both sides of the point. -/
def reached (n : Numeral) (part : Part) : Literal := ⟨n.negative, part, n.significand, n.scale⟩

/-- The literal after all of the numeral, unless the exponent is out of range. -/
def literal? (n : Numeral) : Option Literal :=
  match n.power with
  | none => some (n.reached n.mantissaPart)
  | some p =>
    if p.value ≤ Literal.maxExponent then some (n.reached (.power p.isNegative p.value))
    else if p.isNegative = false ∧ n.significand ≠ 0 then none
    else some (n.reached .vanished)

end Numeral

/-! ## Number of the literal reached -/

theorem Literal.toOption_real {l : Literal} {e : Int} :
    (l.real e).toOption = (scaled? l.significand e).map fun a => .real (l.signed a) := by
  rw [Literal.real]
  cases scaled? l.significand e <;> rfl

namespace Numeral

theorem dropped_of_lead_eq_zero {n : Numeral} (h : n.lead = 0) : n.dropped = 0 := by
  rw [dropped, n.whole_eq_nil h]
  rfl

theorem number_mantissa (n : Numeral) :
    (n.reached n.mantissaPart).number.toOption =
      if n.fraction = [] ∧ n.dropped = 0 then some n.integer else n.real? n.scale := by
  by_cases noPoint : n.fraction = []
  · rw [reached, mantissaPart, if_pos noPoint, wholePart]
    by_cases zero : n.lead = 0
    · rw [if_pos zero, if_pos ⟨noPoint, dropped_of_lead_eq_zero zero⟩]
      rfl
    · rw [if_neg zero]
      by_cases taken : n.dropped = 0
      · rw [if_pos taken, if_pos ⟨noPoint, taken⟩]
        rfl
      · have notBoth : ¬(n.fraction = [] ∧ n.dropped = 0) := fun both => taken both.2
        rw [if_neg taken, if_neg notBoth, Literal.number, Literal.toOption_real]
        rfl
  · have notBoth : ¬(n.fraction = [] ∧ n.dropped = 0) := fun both => noPoint both.1
    rw [reached, mantissaPart, if_neg noPoint, if_neg notBoth]
    split <;> rw [Literal.number, Literal.toOption_real] <;> rfl

/-- The number of the literal that the machine comes to is the number of the numeral. -/
theorem number?_eq_number (n : Numeral) :
    n.number? = n.literal?.bind fun l => l.number.toOption := by
  rw [number?, literal?]
  cases n.power with
  | none => exact (number_mantissa n).symm
  | some p =>
    simp only
    by_cases fits : p.value ≤ Literal.maxExponent
    · rw [if_pos fits, if_pos fits, Option.bind_some, reached, Literal.number,
        Literal.toOption_real]
      rfl
    · rw [if_neg fits, if_neg fits]
      by_cases large : p.isNegative = false ∧ n.significand ≠ 0
      · rw [if_pos large, if_pos large]
        rfl
      · rw [if_neg large, if_neg large]
        rfl

end Numeral

/-! ## Reading -/

namespace Literal

def advance? (l : Literal) (c : Char) : Option Literal :=
  match l.step c with
  | .ok (some next) => some next
  | .ok none => none
  | .error _ => none

/-- The literal continued by characters, none of which ends it. -/
def run (l : Literal) (cs : List Char) : Option Literal := cs.foldlM advance? l

theorem step_eq_of_advance? {l next : Literal} {c : Char} (h : l.advance? c = some next) :
    l.step c = .ok (some next) := by
  rw [advance?] at h
  split at h
  · next read =>
    cases h
    exact read
  · cases h
  · cases h

theorem run_cons {l next : Literal} {c : Char} (h : l.step c = .ok (some next))
    (rest : List Char) : l.run (c :: rest) = next.run rest := by
  rw [run, List.foldlM_cons, advance?, h]
  rfl

theorem run_cons_of_error {l : Literal} {c : Char} {halt : Halt} (h : l.step c = .error halt)
    (rest : List Char) : l.run (c :: rest) = none := by
  rw [run, List.foldlM_cons, advance?, h]
  rfl

theorem run_cons_congr {l m : Literal} {c : Char} (h : l.step c = m.step c) (rest : List Char) :
    l.run (c :: rest) = m.run (c :: rest) := by
  rw [run, run, List.foldlM_cons, List.foldlM_cons, advance?, advance?, h]

theorem run_append (l : Literal) (before after : List Char) :
    l.run (before ++ after) = (l.run before).bind fun m => m.run after :=
  List.foldlM_append

def canEnd : Part → Bool
  | .sign | .point | .mark | .markSign _ => false
  | .zero | .whole | .wholeDropped | .fraction | .fractionDropped | .power _ _ | .vanished => true

/-- Whether a number literal goes on with a character, wherever it has come to. -/
def continues (c : Char) : Bool := c.isDigit || c == '.' || c == 'e' || c == 'E'

/-- A digit does not end a number. -/
theorem step_digitChar_ne (l : Literal) (d : Fin 10) : l.step (digitChar d) ≠ .ok none := by
  have power : ∀ negative value, (l.powerDigit negative value d).map some ≠ .ok none := by
    intro negative value
    cases l.powerDigit negative value d <;> nofun
  rw [step, digit?_digitChar]
  cases l.part with
  | mark => exact power false 0
  | markSign negative => exact power negative 0
  | power negative value => exact power negative value
  | _ => nofun

theorem step_of_not_continues {l : Literal} {c : Char} (h : canEnd l.part = true)
    (other : continues c = false) : l.step c = .ok none := by
  simp only [continues, Bool.or_eq_false_iff, beq_eq_false_iff_ne] at other
  obtain ⟨⟨⟨notDigit, notPoint⟩, notSmall⟩, notCapital⟩ := other
  have digit : Text.digit? c = none := by rw [Text.digit?, notDigit]; rfl
  have whole : l.afterWhole c = none := by
    rw [afterWhole, if_neg notPoint, if_neg (not_or.mpr ⟨notSmall, notCapital⟩)]
  have fraction : l.afterFraction c = none := by
    rw [afterFraction, if_neg (not_or.mpr ⟨notSmall, notCapital⟩)]
  rw [step, digit]
  generalize l.part = part at h ⊢
  cases part with
  | sign => cases h
  | point => cases h
  | mark => cases h
  | markSign negative => cases h
  | zero => exact congrArg Except.ok whole
  | whole => exact congrArg Except.ok whole
  | wholeDropped => exact congrArg Except.ok whole
  | fraction => exact congrArg Except.ok fraction
  | fractionDropped => exact congrArg Except.ok fraction
  | power negative value => rfl
  | vanished => rfl

/-! ## Digits read -/

section

variable (negative : Bool) (s : Nat) (e : Int) (digits : List (Fin 10))

theorem run_wholeDropped :
    (Literal.mk negative .wholeDropped s e).run (digits.map digitChar) =
      some ⟨negative, .wholeDropped, s, e + digits.length⟩ := by
  induction digits generalizing e with
  | nil =>
    rw [List.length_nil, Int.natCast_zero, Int.add_zero]
    rfl
  | cons d digits ih =>
    have read : (Literal.mk negative .wholeDropped s e).step (digitChar d) =
        .ok (some ⟨negative, .wholeDropped, s, e + 1⟩) := by
      rw [step, digit?_digitChar]
    have count : e + 1 + (digits.length : Int) = e + (d :: digits).length := by
      rw [List.length_cons]; omega
    rw [List.map_cons, run_cons read, ih, count]

theorem run_whole :
    (Literal.mk negative .whole s 0).run (digits.map digitChar) =
      some ⟨negative, if (absorb s digits).2.length = 0 then .whole else .wholeDropped,
        (absorb s digits).1, (absorb s digits).2.length⟩ := by
  induction digits generalizing s with
  | nil => rfl
  | cons d digits ih =>
    rw [List.map_cons]
    cases room : withDigit? s d with
    | some next =>
      have read : (Literal.mk negative .whole s 0).step (digitChar d) =
          .ok (some ⟨negative, .whole, next, 0⟩) := by
        rw [step, digit?_digitChar]
        simp only [wholeDigit, room]
      rw [run_cons read, absorb_of_some room, ih]
    | none =>
      have read : (Literal.mk negative .whole s 0).step (digitChar d) =
          .ok (some ⟨negative, .wholeDropped, s, 0 + 1⟩) := by
        rw [step, digit?_digitChar]
        simp only [wholeDigit, room]
      have left : ¬(d :: digits).length = 0 := by rw [List.length_cons]; omega
      have count : (0 : Int) + 1 + digits.length = (d :: digits).length := by
        rw [List.length_cons]; omega
      rw [run_cons read, absorb_of_none room, run_wholeDropped, if_neg left, count]

theorem run_of_unmoved {l : Literal} (h : ∀ d : Fin 10, l.step (digitChar d) = .ok (some l)) :
    l.run (digits.map digitChar) = some l := by
  induction digits with
  | nil => rfl
  | cons d digits ih => rw [List.map_cons, run_cons (h d), ih]

theorem run_fractionDropped :
    (Literal.mk negative .fractionDropped s e).run (digits.map digitChar) =
      some ⟨negative, .fractionDropped, s, e⟩ :=
  run_of_unmoved digits fun d => by rw [step, digit?_digitChar]

theorem run_vanished :
    (Literal.mk negative .vanished s e).run (digits.map digitChar) =
      some ⟨negative, .vanished, s, e⟩ :=
  run_of_unmoved digits fun d => by rw [step, digit?_digitChar]

theorem run_fraction :
    (Literal.mk negative .fraction s e).run (digits.map digitChar) =
      some ⟨negative, if (absorb s digits).2 = [] then .fraction else .fractionDropped,
        (absorb s digits).1, e - (digits.length - (absorb s digits).2.length : Nat)⟩ := by
  induction digits generalizing s e with
  | nil => simp [run, absorb]
  | cons d digits ih =>
    rw [List.map_cons]
    cases room : withDigit? s d with
    | some next =>
      have read : (Literal.mk negative .fraction s e).step (digitChar d) =
          .ok (some ⟨negative, .fraction, next, e - 1⟩) := by
        rw [step, digit?_digitChar]
        simp only [fractionDigit, room]
      have fewer := length_absorb_le next digits
      have count : e - 1 - (digits.length - (absorb next digits).2.length : Nat) =
          e - ((d :: digits).length - (absorb next digits).2.length : Nat) := by
        rw [List.length_cons]; omega
      rw [run_cons read, absorb_of_some room, ih, count]
    | none =>
      have read : (Literal.mk negative .fraction s e).step (digitChar d) =
          .ok (some ⟨negative, .fractionDropped, s, e⟩) := by
        rw [step, digit?_digitChar]
        simp only [fractionDigit, room]
      rw [run_cons read, absorb_of_none room, run_fractionDropped,
        if_neg (List.cons_ne_nil d digits), Nat.sub_self, Int.natCast_zero, Int.sub_zero]

theorem run_power (down : Bool) {value : Nat} (fits : value ≤ maxExponent) :
    (Literal.mk negative (.power down value) s e).run (digits.map digitChar) =
      if withDigits value digits ≤ maxExponent then
        some ⟨negative, .power down (withDigits value digits), s, e⟩
      else if down = false ∧ s ≠ 0 then none
      else some ⟨negative, .vanished, s, e⟩ := by
  induction digits generalizing value with
  | nil => exact (if_pos fits).symm
  | cons d digits ih =>
    rw [List.map_cons, withDigits_cons]
    -- The machine judges the first prefix beyond the limit; no digit after it makes the value less.
    by_cases more : value * 10 + d.val ≤ maxExponent
    · have read : (Literal.mk negative (.power down value) s e).step (digitChar d) =
          .ok (some ⟨negative, .power down (value * 10 + d.val), s, e⟩) := by
        rw [step, digit?_digitChar]
        simp only [powerDigit, if_pos more, Except.map]
      rw [run_cons read, ih more]
    · have grown := le_withDigits (value * 10 + d.val) digits
      rw [if_neg (by omega)]
      by_cases large : down = false ∧ s ≠ 0
      · have read : (Literal.mk negative (.power down value) s e).step (digitChar d) =
            .error ⟨.numberOutOfRange, 1⟩ := by
          rw [step, digit?_digitChar]
          simp only [powerDigit, if_neg more, if_pos large, Except.map]
        rw [if_pos large, run_cons_of_error read]
      · have read : (Literal.mk negative (.power down value) s e).step (digitChar d) =
            .ok (some ⟨negative, .vanished, s, e⟩) := by
          rw [step, digit?_digitChar]
          simp only [powerDigit, if_neg more, if_neg large, Except.map]
        rw [if_neg large, run_cons read, run_vanished]

end

/-! ## Numerals read -/

variable (n : Numeral)

theorem run_wholeText :
    (firstDigit n.negative n.lead).run (n.whole.map digitChar) =
      some ⟨n.negative, n.wholePart, n.wholeSignificand, n.dropped⟩ := by
  rw [Numeral.wholePart, Numeral.wholeSignificand, Numeral.dropped]
  by_cases zero : n.lead = 0
  · rw [n.whole_eq_nil zero, if_pos zero, zero]
    rfl
  · have positive : n.lead.val ≠ 0 := fun h => zero (Fin.ext h)
    rw [firstDigit, if_neg positive, if_neg zero]
    exact run_whole n.negative n.lead n.whole

theorem step_point (s : Nat) (e : Int) :
    (Literal.mk n.negative n.wholePart s e).step '.' = .ok (some ⟨n.negative, .point, s, e⟩) := by
  rw [Numeral.wholePart]
  split
  · rfl
  · split <;> rfl

theorem run_fractionText :
    (Literal.mk n.negative n.wholePart n.wholeSignificand n.dropped).run n.fractionText =
      some (n.reached n.mantissaPart) := by
  rw [Numeral.fractionText, Numeral.reached, Numeral.mantissaPart, Numeral.significand,
    Numeral.scale, Numeral.places]
  cases digits : n.fraction with
  | nil => rfl
  | cons d rest =>
    have first : (Literal.mk n.negative .point n.wholeSignificand n.dropped).step (digitChar d) =
        (Literal.mk n.negative .fraction n.wholeSignificand n.dropped).step (digitChar d) := by
      simp only [step, digit?_digitChar, fractionDigit]
    rw [run_cons (step_point n _ _), if_neg (List.cons_ne_nil d rest), List.map_cons,
      run_cons_congr first, ← List.map_cons, run_fraction]

theorem step_mark (p : Power) :
    (n.reached n.mantissaPart).step p.mark = .ok (some (n.reached .mark)) := by
  rw [Numeral.mantissaPart, Numeral.wholePart, Power.mark]
  split <;> split <;> split <;> first | rfl | (split <;> rfl)

/-- After the sign of an exponent, left out or not, the machine goes on with a digit as it does
within an exponent that is zero so far. -/
theorem exists_run_signText (p : Power) :
    ∃ l, (n.reached .mark).run p.signText = some l ∧
      ∀ d rest, l.run (digitChar d :: rest) =
        (n.reached (.power p.isNegative 0)).run (digitChar d :: rest) := by
  rw [Power.signText, Power.isNegative]
  cases p.sign with
  | none =>
    refine ⟨n.reached .mark, rfl, fun d rest => run_cons_congr ?_ rest⟩
    simp only [step, Numeral.reached, digit?_digitChar, Option.getD_none, powerDigit]
  | some negative =>
    have sign : (n.reached .mark).step (if negative then '-' else '+') =
        .ok (some (n.reached (.markSign negative))) := by
      cases negative <;> rfl
    refine ⟨n.reached (.markSign negative), run_cons sign [], fun d rest => run_cons_congr ?_ rest⟩
    simp only [step, Numeral.reached, digit?_digitChar, Option.getD_some, powerDigit]
    rfl

theorem run_powerText : (n.reached n.mantissaPart).run n.powerText = n.literal? := by
  rw [Numeral.powerText, Numeral.literal?]
  cases n.power with
  | none => rfl
  | some p =>
    obtain ⟨l, signed, same⟩ := exists_run_signText n p
    simp only [Power.text, List.map_cons]
    rw [run_cons (step_mark n p), run_append, signed, Option.bind_some, same, ← List.map_cons]
    exact run_power n.negative n.significand n.scale _ p.isNegative (Nat.zero_le _)

/-- **The machine reads a numeral to its end**, and then holds its significand, its scale and its
exponent, unless it has stopped at an exponent out of range. -/
theorem run_tail : (firstDigit n.negative n.lead).run n.tail = n.literal? := by
  rw [Numeral.tail, run_append, run_append, run_wholeText, Option.bind_some, run_fractionText,
    Option.bind_some, run_powerText]

theorem canEnd_mantissaPart : canEnd n.mantissaPart = true := by
  rw [Numeral.mantissaPart, Numeral.wholePart]
  split <;> split <;> first | rfl | (split <;> rfl)

theorem canEnd_literal? {n : Numeral} {l : Literal} (h : n.literal? = some l) :
    canEnd l.part = true := by
  rw [Numeral.literal?] at h
  split at h
  · cases h
    exact canEnd_mantissaPart n
  · split at h
    · cases h
      rfl
    · split at h
      · cases h
      · cases h
        rfl

/-- A numeral that denotes a number is read to the end of a literal that has this number. -/
theorem run_tail_of_number? {n : Numeral} {x : Number} (h : n.number? = some x) :
    ∃ l, (firstDigit n.negative n.lead).run n.tail = some l ∧ canEnd l.part = true ∧
      l.number = .ok x := by
  rw [n.number?_eq_number] at h
  obtain ⟨l, reached, number⟩ := Option.bind_eq_some_iff.mp h
  refine ⟨l, (run_tail n).trans reached, canEnd_literal? reached, ?_⟩
  cases result : l.number with
  | error cause =>
    rw [result] at number
    cases number
  | ok y =>
    rw [result] at number
    cases number
    rfl

end Literal

end LatencyLog.Json
