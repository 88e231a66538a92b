import LatencyLog.Int128
import LatencyLog.Text.Blank
import Mathlib.Data.List.TakeWhile

/-! # Decimal notation

* `Text.digitChar`, `Text.withDigits`: decimal digits as characters, and the number that they build.
* `Text.ofDigits?_eq_some_iff`: the texts that denote a number within a limit.
* `Text.trim_pad`, `Text.exists_pad_of_trim`: what lies around a trimmed text.
* `Text.DenotesInteger`: a sign that may be left out, and digits.
* `Text.denotesInteger_toString`: integers are denoted by the texts that they are printed as.
* `Int128.ofDecimal?_trim_eq_some_iff`: the texts that hold an integer of 128 bits between blanks.
-/

namespace LatencyLog

set_option autoImplicit false

namespace Text

/-! ## Digits -/

def digitChar (d : Fin 10) : Char := Nat.digitChar d

theorem digit?_digitChar : ∀ d : Fin 10, digit? (digitChar d) = some d.val := by decide

theorem exists_digitChar_of_digit? {c : Char} {n : Nat} (h : digit? c = some n) :
    ∃ d : Fin 10, c = digitChar d ∧ n = d := by
  rw [digit?] at h
  split at h
  · next isDigit =>
    cases h
    have lower : 48 ≤ c.toNat := by
      simp only [Char.isDigit, Bool.and_eq_true, decide_eq_true_eq] at isDigit
      exact isDigit.1
    have upper : c.toNat ≤ 57 := by
      simp only [Char.isDigit, Bool.and_eq_true, decide_eq_true_eq] at isDigit
      exact isDigit.2
    have small : c.toNat - 48 < 10 := by omega
    refine ⟨⟨c.toNat - 48, small⟩, ?_, rfl⟩
    refine Char.toNat_inj.mp ?_
    rw [digitChar, Nat.toNat_digitChar_of_lt_ten small]
    omega
  · cases h

/-- The number that `value` becomes when digits are written after it. -/
def withDigits (value : Nat) (digits : List (Fin 10)) : Nat :=
  digits.foldl (fun n (d : Fin 10) => n * 10 + d.val) value

theorem withDigits_cons (value : Nat) (d : Fin 10) (digits : List (Fin 10)) :
    withDigits value (d :: digits) = withDigits (value * 10 + d.val) digits := rfl

theorem le_withDigits (value : Nat) (digits : List (Fin 10)) : value ≤ withDigits value digits := by
  induction digits generalizing value with
  | nil => exact Nat.le_refl _
  | cons d digits ih =>
    rw [withDigits_cons]
    have := ih (value * 10 + d.val)
    omega

theorem withDigits_append (value : Nat) (before after : List (Fin 10)) :
    withDigits value (before ++ after) = withDigits (withDigits value before) after :=
  List.foldl_append

theorem appendDigits?_eq_some_iff {limit value n : Nat} (fits : value ≤ limit) {cs : List Char} :
    appendDigits? limit value cs = some n ↔
      ∃ digits : List (Fin 10), cs = digits.map digitChar ∧ n = withDigits value digits ∧
        n ≤ limit := by
  induction cs generalizing value with
  | nil =>
    constructor
    · intro h
      cases h
      exact ⟨[], rfl, rfl, fits⟩
    · rintro ⟨digits, written, rfl, -⟩
      rw [List.map_eq_nil_iff.mp written.symm]
      rfl
  | cons c rest ih =>
    constructor
    · intro h
      rw [appendDigits?] at h
      cases read : digit? c with
      | none =>
        rw [read] at h
        cases h
      | some m =>
        rw [read] at h
        obtain ⟨d, rfl, rfl⟩ := exists_digitChar_of_digit? read
        by_cases more : value * 10 + d.val ≤ limit
        · simp only [if_pos more] at h
          obtain ⟨digits, rfl, denoted, le⟩ := (ih more).mp h
          exact ⟨d :: digits, rfl, denoted, le⟩
        · simp only [if_neg more] at h
          cases h
    · rintro ⟨digits, written, denoted, le⟩
      cases digits with
      | nil => cases written
      | cons d digits =>
        rw [List.map_cons, List.cons.injEq] at written
        obtain ⟨rfl, rfl⟩ := written
        rw [withDigits_cons] at denoted
        have grown := le_withDigits (value * 10 + d.val) digits
        have more : value * 10 + d.val ≤ limit := by omega
        rw [appendDigits?, digit?_digitChar]
        simp only [if_pos more]
        exact (ih more).mpr ⟨digits, rfl, denoted, le⟩

/-- The texts that denote a number within a limit. -/
theorem ofDigits?_eq_some_iff {limit n : Nat} {cs : List Char} :
    ofDigits? limit cs = some n ↔
      ∃ digits : List (Fin 10), digits ≠ [] ∧ cs = digits.map digitChar ∧
        n = withDigits 0 digits ∧ n ≤ limit := by
  cases cs with
  | nil =>
    constructor
    · intro h
      cases h
    · rintro ⟨digits, some, written, -⟩
      exact absurd (List.map_eq_nil_iff.mp written.symm) some
  | cons c rest =>
    rw [ofDigits?, appendDigits?_eq_some_iff (Nat.zero_le limit)]
    · constructor
      · rintro ⟨digits, written, denoted⟩
        refine ⟨digits, ?_, written, denoted⟩
        rintro rfl
        cases written
      · rintro ⟨digits, -, written, denoted⟩
        exact ⟨digits, written, denoted⟩
    · intro h
      cases h

/-! ## Blanks around a text -/

def AllBlank (cs : List Char) : Prop := ∀ c ∈ cs, isBlank c = true

theorem dropWhile_isBlank_append {gap body : List Char} (blank : AllBlank gap)
    (solid : ∀ c ∈ body, isBlank c = false) (some : body ≠ []) (rest : List Char) :
    (gap ++ (body ++ rest)).dropWhile isBlank = body ++ rest := by
  rw [List.dropWhile_append_of_pos blank]
  obtain ⟨c, later, rfl⟩ := List.exists_cons_of_ne_nil some
  have first : ¬isBlank c = true := by simp [solid c List.mem_cons_self]
  exact List.dropWhile_cons_of_neg first

theorem trim_pad {before body after : List Char} (hbefore : AllBlank before)
    (solid : ∀ c ∈ body, isBlank c = false) (some : body ≠ []) (hafter : AllBlank after) :
    trim (before ++ (body ++ after)) = body := by
  have back : AllBlank after.reverse := fun c member => hafter c (List.mem_reverse.mp member)
  have solidBack : ∀ c ∈ body.reverse, isBlank c = false := fun c member =>
    solid c (List.mem_reverse.mp member)
  have someBack : body.reverse ≠ [] := fun h => some (List.reverse_eq_nil_iff.mp h)
  have dropped := dropWhile_isBlank_append back solidBack someBack []
  rw [List.append_nil] at dropped
  rw [trim, dropWhile_isBlank_append hbefore solid some, List.reverse_append, dropped,
    List.reverse_reverse]

theorem exists_pad_of_trim (text : List Char) :
    ∃ before after, text = before ++ (trim text ++ after) ∧ AllBlank before ∧ AllBlank after := by
  refine ⟨text.takeWhile isBlank,
    ((text.dropWhile isBlank).reverse.takeWhile isBlank).reverse, ?_, ?_, ?_⟩
  · rw [trim, ← List.reverse_append, List.takeWhile_append_dropWhile, List.reverse_reverse,
      List.takeWhile_append_dropWhile]
  · exact fun c member => List.mem_takeWhile_imp member
  · exact fun c member => List.mem_takeWhile_imp (List.mem_reverse.mp member)

/-! ## Signed digits -/

/-- A sign that may be left out, and one or more digits. -/
inductive DenotesInteger : List Char → Int → Prop where
  | plain {digits : List (Fin 10)} (h : digits ≠ []) :
      DenotesInteger (digits.map digitChar) (withDigits 0 digits)
  | plus {digits : List (Fin 10)} (h : digits ≠ []) :
      DenotesInteger ('+' :: digits.map digitChar) (withDigits 0 digits)
  | minus {digits : List (Fin 10)} (h : digits ≠ []) :
      DenotesInteger ('-' :: digits.map digitChar) (-(withDigits 0 digits : Int))

theorem DenotesInteger.ne_nil {cs : List Char} {i : Int} (h : DenotesInteger cs i) : cs ≠ [] := by
  cases h with
  | plain some => exact fun empty => some (List.map_eq_nil_iff.mp empty)
  | plus => exact List.cons_ne_nil _ _
  | minus => exact List.cons_ne_nil _ _

/-- The digits that a natural number is printed with build it. -/
theorem exists_digits_toDigits (n : Nat) :
    ∃ digits : List (Fin 10), digits ≠ [] ∧ Nat.toDigits 10 n = digits.map digitChar ∧
      withDigits 0 digits = n := by
  induction n using Nat.strongRecOn with
  | ind n ih =>
    rw [Nat.toDigits_eq_if (by decide)]
    split
    · next small => exact ⟨[⟨n, small⟩], List.cons_ne_nil _ _, rfl, by simp [withDigits]⟩
    · next large =>
      obtain ⟨digits, -, written, value⟩ := ih (n / 10) (by omega)
      have last : n % 10 < 10 := Nat.mod_lt n (by decide)
      refine ⟨digits ++ [⟨n % 10, last⟩], by simp, ?_, ?_⟩
      · rw [written, List.map_append]
        rfl
      · rw [withDigits_append, value, withDigits_cons]
        exact Nat.div_add_mod' n 10

/-- An integer is printed as its digits, after a sign where it is negative. -/
theorem toList_toString (i : Int) :
    (toString i).toList = (if i < 0 then ['-'] else []) ++ Nat.toDigits 10 i.natAbs := by
  cases i with
  | ofNat n =>
    have plain : toString (Int.ofNat n) = String.ofList (Nat.toDigits 10 n) := rfl
    have nonneg : ¬Int.ofNat n < 0 := Int.not_lt.mpr (Int.natCast_nonneg n)
    rw [plain, String.toList_ofList, if_neg nonneg]
    rfl
  | negSucc n =>
    have sign : toString (Int.negSucc n) = "-" ++ String.ofList (Nat.toDigits 10 (n + 1)) := rfl
    simp [sign, Int.negSucc_lt_zero]

/-- An integer is denoted by the text that it is printed as. -/
theorem denotesInteger_toString (i : Int) : DenotesInteger (toString i).toList i := by
  obtain ⟨digits, some, written, value⟩ := exists_digits_toDigits i.natAbs
  rw [toList_toString, written]
  split
  · have denoted := DenotesInteger.minus some
    have same : -(i.natAbs : Int) = i := by omega
    rwa [value, same] at denoted
  · have denoted := DenotesInteger.plain some
    have same : (i.natAbs : Int) = i := by omega
    rwa [value, same] at denoted

theorem isBlank_digitChar : ∀ d : Fin 10, isBlank (digitChar d) = false := by decide

theorem DenotesInteger.isBlank_eq_false {cs : List Char} {i : Int} (h : DenotesInteger cs i) :
    ∀ c ∈ cs, isBlank c = false := by
  have ofDigits : ∀ digits : List (Fin 10), ∀ c ∈ digits.map digitChar, isBlank c = false := by
    intro digits c member
    obtain ⟨d, -, rfl⟩ := List.mem_map.mp member
    exact isBlank_digitChar d
  cases h with
  | plain => exact ofDigits _
  | plus => exact List.forall_mem_cons.mpr ⟨by decide, ofDigits _⟩
  | minus => exact List.forall_mem_cons.mpr ⟨by decide, ofDigits _⟩

end Text

namespace Int128

open Text

theorem ofDecimal?_of_unsigned {c : Char} (notMinus : c ≠ '-') (notPlus : c ≠ '+')
    (rest : List Char) :
    ofDecimal? (c :: rest) =
      (ofDigits? (2 ^ 127) (c :: rest)).bind fun n => ofInt? n := by
  rw [ofDecimal?]
  · rintro digits ⟨⟩
    exact notMinus rfl
  · rintro digits ⟨⟩
    exact notPlus rfl

theorem digitChar_ne_sign : ∀ d : Fin 10, digitChar d ≠ '-' ∧ digitChar d ≠ '+' := by decide

theorem denotesInteger_of_ofDecimal? {cs : List Char} {x : Int128} (h : ofDecimal? cs = some x) :
    DenotesInteger cs x.toInt := by
  rw [ofDecimal?.eq_def] at h
  split at h
  · obtain ⟨n, read, fits⟩ := Option.bind_eq_some_iff.mp h
    obtain ⟨digits, some, rfl, rfl, -⟩ := ofDigits?_eq_some_iff.mp read
    rw [ofInt?_eq_some_iff.mp fits]
    exact .minus some
  · obtain ⟨n, read, fits⟩ := Option.bind_eq_some_iff.mp h
    obtain ⟨digits, some, rfl, rfl, -⟩ := ofDigits?_eq_some_iff.mp read
    rw [ofInt?_eq_some_iff.mp fits]
    exact .plus some
  · obtain ⟨n, read, fits⟩ := Option.bind_eq_some_iff.mp h
    obtain ⟨digits, some, rfl, rfl, -⟩ := ofDigits?_eq_some_iff.mp read
    rw [ofInt?_eq_some_iff.mp fits]
    exact .plain some

theorem ofDecimal?_of_denotesInteger {cs : List Char} {i : Int} (h : DenotesInteger cs i)
    {x : Int128} (same : x.toInt = i) : ofDecimal? cs = some x := by
  have lower := x.minValue_le
  have upper := x.le_maxValue
  cases h with
  | @plain digits some =>
    obtain ⟨d, rest, rfl⟩ := List.exists_cons_of_ne_nil some
    obtain ⟨notMinus, notPlus⟩ := digitChar_ne_sign d
    have read := ofDigits?_eq_some_iff.mpr
      ⟨d :: rest, some, rfl, rfl, (by omega : withDigits 0 (d :: rest) ≤ 2 ^ 127)⟩
    rw [List.map_cons] at read ⊢
    rw [ofDecimal?_of_unsigned notMinus notPlus, read]
    exact ofInt?_eq_some_iff.mpr same
  | @plus digits some =>
    have read := ofDigits?_eq_some_iff.mpr
      ⟨digits, some, rfl, rfl, (by omega : withDigits 0 digits ≤ 2 ^ 127)⟩
    rw [ofDecimal?, read]
    exact ofInt?_eq_some_iff.mpr same
  | @minus digits some =>
    have read := ofDigits?_eq_some_iff.mpr
      ⟨digits, some, rfl, rfl, (by omega : withDigits 0 digits ≤ 2 ^ 127)⟩
    rw [ofDecimal?, read]
    exact ofInt?_eq_some_iff.mpr same

/-- **The texts that hold an integer between blanks** are those that the trimmed text denotes it
in. -/
theorem ofDecimal?_trim_eq_some_iff {text : List Char} {x : Int128} :
    ofDecimal? (trim text) = some x ↔
      ∃ before body after, text = before ++ (body ++ after) ∧ AllBlank before ∧ AllBlank after ∧
        DenotesInteger body x.toInt := by
  constructor
  · intro h
    obtain ⟨before, after, split, hbefore, hafter⟩ := exists_pad_of_trim text
    exact ⟨before, trim text, after, split, hbefore, hafter, denotesInteger_of_ofDecimal? h⟩
  · rintro ⟨before, body, after, rfl, hbefore, hafter, denoted⟩
    rw [trim_pad hbefore denoted.isBlank_eq_false denoted.ne_nil hafter]
    exact ofDecimal?_of_denotesInteger denoted rfl

end Int128

end LatencyLog
