import LatencyLog.Proofs.Json.Quotation
import LatencyLog.Proofs.Utf8.Encoding

/-! # Quoted texts begun

What the characters after an opening quote are, given the quoted text that they have come to.

* `Json.Escape.Holds`: the characters of the escape under way. A group with a letter that is no
  digit holds nothing: it can only be refused.
* `Json.Quoted.Holds`: whole characters, and then the escape under way.
* `Json.Quoted.holds_step`: one more character keeps this.
* `Json.Quoted.spellsCharacters_of_closed`: a text that closes is spelled by its characters.
-/

namespace LatencyLog.Json

set_option autoImplicit false

/-! ## Codes -/

theorem toNat_digitChar_small : ∀ d : Fin 16, d.val < 10 → (Nat.digitChar d).toNat = 48 + d := by
  decide

theorem toNat_digitChar_large : ∀ d : Fin 16, 10 ≤ d.val → (Nat.digitChar d).toNat = 87 + d := by
  decide

theorem toNat_toUpper_large :
    ∀ d : Fin 16, 10 ≤ d.val → (Nat.digitChar d).toUpper.toNat = 55 + d := by
  decide

theorem exists_isHexLetter_of_hexDigit? {c : Char} {n : Nat} (h : hexDigit? c = some n) :
    ∃ d : Fin 16, n = d ∧ IsHexLetter d c := by
  unfold hexDigit? at h
  split at h
  · next range =>
    have lower : 48 ≤ c.toNat := range.1
    have upper : c.toNat ≤ 57 := range.2
    have value : n = c.toNat - 48 := (Option.some.inj h).symm
    refine ⟨⟨n, by omega⟩, rfl, Or.inl (Char.toNat_inj.mp ?_)⟩
    rw [toNat_digitChar_small _ (show n < 10 by omega)]
    show c.toNat = 48 + n
    omega
  · split at h
    · next range =>
      have lower : 97 ≤ c.toNat := range.1
      have upper : c.toNat ≤ 102 := range.2
      have value : n = c.toNat - 97 + 10 := (Option.some.inj h).symm
      refine ⟨⟨n, by omega⟩, rfl, Or.inl (Char.toNat_inj.mp ?_)⟩
      rw [toNat_digitChar_large _ (show 10 ≤ n by omega)]
      show c.toNat = 87 + n
      omega
    · split at h
      · next range =>
        have lower : 65 ≤ c.toNat := range.1
        have upper : c.toNat ≤ 70 := range.2
        have value : n = c.toNat - 65 + 10 := (Option.some.inj h).symm
        refine ⟨⟨n, by omega⟩, rfl, Or.inr (Char.toNat_inj.mp ?_)⟩
        rw [toNat_toUpper_large _ (show 10 ≤ n by omega)]
        show c.toNat = 55 + n
        omega
      · cases h

/-- The first letters of a code, and the number that they build. -/
inductive CodeBegun : Nat → List Char → Prop where
  | nil : CodeBegun 0 []
  | snoc {n : Nat} {letters : List Char} {d : Fin 16} {c : Char} (h : CodeBegun n letters)
      (hc : IsHexLetter d c) : CodeBegun (n * 16 + d) (letters ++ [c])

theorem spellsCode_of_codeBegun {n : Nat} {letters : List Char} (h : CodeBegun n letters)
    (four : letters.length = 4) : SpellsCode n letters := by
  rcases h with _ | ⟨h, hd⟩
  · cases four
  rcases h with _ | ⟨h, hc⟩
  · cases four
  rcases h with _ | ⟨h, hb⟩
  · cases four
  rcases h with _ | ⟨h, ha⟩
  · cases four
  rcases h with _ | ⟨h, _⟩
  · simp only [Nat.zero_mul, Nat.zero_add]
    exact .group ha hb hc hd
  · simp at four

theorem spellsCharacter_of_code {n : Nat} {letters : List Char} (code : SpellsCode n letters)
    (notLow : ¬isLowSurrogate n = true) (notHigh : ¬isHighSurrogate n = true) :
    SpellsCharacter (Char.ofNat n) ('\\' :: 'u' :: letters) := by
  have bound : n < 0x10000 := by
    cases code
    omega
  have valid : n.isValidChar := by
    simp only [isLowSurrogate, isHighSurrogate, Bool.and_eq_true, decide_eq_true_eq, not_and]
      at notLow notHigh
    unfold Nat.isValidChar
    omega
  apply SpellsCharacter.code
  rw [Utf8.toNat_ofNat_of_valid valid]
  exact code

theorem spellsCharacter_of_pair {high low : Nat} {first second : List Char}
    (hfirst : SpellsCode high first) (hsecond : SpellsCode low second)
    (hhigh : isHighSurrogate high = true) (hlow : isLowSurrogate low = true) :
    SpellsCharacter (surrogatePair high low)
      ('\\' :: 'u' :: first ++ '\\' :: 'u' :: second) := by
  simp only [isLowSurrogate, isHighSurrogate, Bool.and_eq_true, decide_eq_true_eq] at hhigh hlow
  have valid : (0x10000 + (high - 0xD800) * 0x400 + (low - 0xDC00)).isValidChar := by
    unfold Nat.isValidChar
    omega
  have value : (surrogatePair high low).toNat =
      0x10000 + (high - 0xD800) * 0x400 + (low - 0xDC00) := Utf8.toNat_ofNat_of_valid valid
  have upper : 0xD800 + ((surrogatePair high low).toNat - 0x10000) / 0x400 = high := by omega
  have lower : 0xDC00 + ((surrogatePair high low).toNat - 0x10000) % 0x400 = low := by omega
  apply SpellsCharacter.pair (by omega)
  · rw [upper]
    exact hfirst
  · rw [lower]
    exact hsecond

/-! ## Escapes under way -/

/-- What stands before a group: nothing, or the group of a high surrogate. -/
inductive HighBefore : Option Nat → List Char → Prop where
  | none : HighBefore none []
  | some {high : Nat} {group : List Char} (code : SpellsCode high group)
      (surrogate : isHighSurrogate high = true) : HighBefore (some high) ('\\' :: 'u' :: group)

inductive Escape.Holds : Escape → List Char → Prop where
  | absent : Holds .absent []
  | begun : Holds .begun ['\\']
  | group {high : Option Nat} {n : Nat} {before letters : List Char}
      (hbefore : HighBefore high before) (code : CodeBegun n letters)
      (short : letters.length < 4) :
      Holds (.group high letters.length (some n)) (before ++ '\\' :: 'u' :: letters)
  | refused (high : Option Nat) (seen : Nat) (cs : List Char) : Holds (.group high seen none) cs
  | lowBackslash {high : Nat} {before : List Char} (h : HighBefore (some high) before) :
      Holds (.lowBackslash high) before
  | lowLetter {high : Nat} {before : List Char} (h : HighBefore (some high) before) :
      Holds (.lowLetter high) (before ++ ['\\'])

/-- The characters after the opening quote are whole characters and the escape under way. -/
def Quoted.Holds (q : Quoted) (cs : List Char) : Prop :=
  ∃ whole begun, cs = whole ++ begun ∧ SpellsCharacters q.done.reverse whole ∧
    q.escape.Holds begun

theorem SpellsCharacters.snoc {text whole cs : List Char} {c : Char}
    (h : SpellsCharacters text whole) (hc : SpellsCharacter c cs) :
    SpellsCharacters (text ++ [c]) (whole ++ cs) := by
  induction h with
  | nil =>
    have one := SpellsCharacters.cons hc .nil
    rw [List.append_nil] at one
    exact one
  | cons head _ ih =>
    rw [List.append_assoc]
    exact .cons head ih

namespace Quoted

variable {done : List Char} {high : Option Nat} {next : Quoted}

theorem holds_start : Quoted.start.Holds [] := ⟨[], [], rfl, .nil, .absent⟩

/-! ## One more character -/

theorem holds_push {whole cs : List Char} {c : Char} (h : SpellsCharacters done.reverse whole)
    (hc : SpellsCharacter c cs) : (Quoted.mk (c :: done) .absent).Holds (whole ++ cs) := by
  refine ⟨whole ++ cs, [], (List.append_nil _).symm, ?_, .absent⟩
  rw [List.reverse_cons]
  exact h.snoc hc

/-- A character by its code: one that is no surrogate, or a pair of surrogates. -/
theorem holds_unit {whole before letters : List Char} {n : Nat}
    (h : SpellsCharacters done.reverse whole) (hbefore : HighBefore high before)
    (code : SpellsCode n letters)
    (judged : unit ⟨done, .absent⟩ high n = .ok (.pending next)) :
    next.Holds (whole ++ (before ++ '\\' :: 'u' :: letters)) := by
  unfold unit at judged
  cases hbefore with
  | none =>
    simp only at judged
    split_ifs at judged with low surrogate
    · have waits : next = ⟨done, .lowBackslash n⟩ := by simpa [await, eq_comm] using judged
      rw [waits]
      exact ⟨whole, _, rfl, h, .lowBackslash (.some code surrogate)⟩
    · have pushed : next = ⟨Char.ofNat n :: done, .absent⟩ := by
        simpa [push, eq_comm] using judged
      rw [pushed]
      exact holds_push h (spellsCharacter_of_code code low surrogate)
  | @some first group hfirst surrogate =>
    simp only at judged
    split_ifs at judged with low
    have pushed : next = ⟨surrogatePair first n :: done, .absent⟩ := by
      simpa [push, eq_comm] using judged
    rw [pushed]
    exact holds_push h (spellsCharacter_of_pair hfirst code surrogate low)

theorem holds_groupCharacter {whole before letters : List Char} {n : Nat} {c : Char}
    (h : SpellsCharacters done.reverse whole) (hbefore : HighBefore high before)
    (code : CodeBegun n letters) (short : letters.length < 4)
    (read : groupCharacter ⟨done, .absent⟩ high letters.length (some n) c = .ok (.pending next)) :
    next.Holds (whole ++ (before ++ '\\' :: 'u' :: (letters ++ [c]))) := by
  unfold groupCharacter at read
  cases digit : hexDigit? c with
  | none =>
    simp only [withHexDigit?, digit] at read
    split at read
    · have waits : next = ⟨done, .group high (letters.length + c.utf8Size) none⟩ := by
        simpa [await, eq_comm] using read
      rw [waits]
      exact ⟨whole, _, rfl, h, .refused high _ _⟩
    · cases read
  | some m =>
    obtain ⟨d, rfl, letter⟩ := exists_isHexLetter_of_hexDigit? digit
    have size : c.utf8Size = 1 := utf8Size_of_isHexLetter letter
    have longer : (letters ++ [c]).length = letters.length + 1 := by simp
    simp only [withHexDigit?, digit, size] at read
    by_cases more : letters.length + 1 < 4
    · have waits : next = ⟨done, .group high (letters ++ [c]).length (some (n * 16 + d))⟩ := by
        simpa [more, await, eq_comm, longer] using read
      rw [waits]
      exact ⟨whole, _, rfl, h, .group hbefore (code.snoc letter) (by omega)⟩
    · rw [if_neg more] at read
      have spelled := spellsCode_of_codeBegun (code.snoc letter) (by omega)
      exact holds_unit h hbefore spelled read

theorem mem_shortEscapes_of_escaped? {letter c : Char} (h : escaped? letter = some c) :
    (letter, c) ∈ shortEscapes := by
  unfold escaped? at h
  split_ifs at h with same
  · have itself : c = letter := (Option.some.inj h).symm
    subst itself
    rcases same with rfl | rfl | rfl <;> decide
  all_goals
    subst letter
    rw [← Option.some.inj h]
    decide

/-- **One more character keeps what the quoted text holds.** -/
theorem holds_step {q : Quoted} {cs : List Char} {c : Char} (h : q.Holds cs)
    (read : q.step c = .ok (.pending next)) : next.Holds (cs ++ [c]) := by
  obtain ⟨done, escape⟩ := q
  obtain ⟨whole, begun, rfl, spelled, held⟩ := h
  rw [List.append_assoc]
  unfold step at read
  cases held with
  | absent =>
    simp only at read
    split_ifs at read with quote backslash control
    · cases read
    · have waits : next = ⟨done, .begun⟩ := by simpa [await, eq_comm] using read
      rw [waits, backslash]
      exact ⟨whole, _, rfl, spelled, .begun⟩
    · have pushed : next = ⟨c :: done, .absent⟩ := by simpa [push, eq_comm] using read
      rw [pushed]
      exact holds_push spelled (.raw (Nat.not_lt.mp control) quote backslash)
  | begun =>
    simp only at read
    split_ifs at read with code
    · have waits : next = ⟨done, .group none 0 (some 0)⟩ := by
        simpa [await, eq_comm] using read
      rw [waits, code]
      exact ⟨whole, _, rfl, spelled, .group .none .nil (by decide)⟩
    · cases letter : escaped? c with
      | none =>
        rw [letter] at read
        cases read
      | some e =>
        have pushed : next = ⟨e :: done, .absent⟩ := by simpa [letter, push, eq_comm] using read
        rw [pushed]
        exact holds_push spelled (.short (mem_shortEscapes_of_escaped? letter))
  | group hbefore code short =>
    rw [List.append_assoc, List.cons_append, List.cons_append]
    exact holds_groupCharacter spelled hbefore code short read
  | refused high seen cs =>
    simp only [groupCharacter, withHexDigit?] at read
    split_ifs at read
    have waits : next = ⟨done, .group high (seen + c.utf8Size) none⟩ := by
      simpa [await, eq_comm] using read
    rw [waits]
    exact ⟨whole, _, rfl, spelled, .refused high _ _⟩
  | @lowBackslash high _ hbefore =>
    simp only at read
    split_ifs at read with backslash
    have waits : next = ⟨done, .lowLetter high⟩ := by simpa [await, eq_comm] using read
    rw [waits, backslash]
    exact ⟨whole, _, rfl, spelled, .lowLetter hbefore⟩
  | @lowLetter high _ hbefore =>
    simp only at read
    split_ifs at read with letter
    have waits : next = ⟨done, .group (some high) 0 (some 0)⟩ := by
      simpa [await, eq_comm] using read
    rw [waits, letter, List.append_assoc]
    exact ⟨whole, _, rfl, spelled, .group hbefore .nil (by decide)⟩

/-! ## The closing quote -/

theorem groupCharacter_ne_closed {q : Quoted} {seen : Nat} {code : Option Nat} {c : Char}
    {text : String} : q.groupCharacter high seen code c ≠ .ok (.closed text) := by
  intro read
  unfold groupCharacter at read
  simp only at read
  split_ifs at read
  · cases read
  · split at read
    · unfold unit at read
      split at read <;> split_ifs at read <;> cases read
    · cases read

theorem spellsCharacters_of_closed {q : Quoted} {cs : List Char} {c : Char} {text : String}
    (h : q.Holds cs) (read : q.step c = .ok (.closed text)) :
    c = '"' ∧ SpellsCharacters text.toList cs := by
  obtain ⟨done, escape⟩ := q
  obtain ⟨whole, begun, rfl, spelled, held⟩ := h
  unfold step at read
  cases held with
  | absent =>
    simp only at read
    split_ifs at read with quote
    · have closed : text = String.ofList done.reverse := by simpa [eq_comm] using read
      rw [closed, String.toList_ofList, List.append_nil]
      exact ⟨quote, spelled⟩
    all_goals cases read
  | begun =>
    simp only at read
    split_ifs at read
    · cases read
    · split at read <;> cases read
  | group => exact absurd read groupCharacter_ne_closed
  | refused => exact absurd read groupCharacter_ne_closed
  | lowBackslash =>
    simp only at read
    split_ifs at read
    cases read
  | lowLetter =>
    simp only at read
    split_ifs at read
    cases read

end Quoted

end LatencyLog.Json
