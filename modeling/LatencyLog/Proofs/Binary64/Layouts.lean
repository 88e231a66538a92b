import LatencyLog.Binary64.Notation
import LatencyLog.Proofs.Binary64.Decimals
import Mathlib.Data.List.DropRight
import Mathlib.Data.List.TakeWhile

/-! # Decimals as they are written

* `Decimal.ofText?`: the decimal that a text denotes: digits, a point that may be left out and an
  exponent that may be left out.
* `PositionalForm`, `ScientificForm`: the two ways of writing a number.
* `Decimal.placed_significant`: the digits of a decimal without the zeros at their end, and the
  place of the point, determine its value.
* `Binary64.exists_ofText?_positional`, `Binary64.exists_ofText?_scientific`: both layouts denote
  the value of the digits with the point at its place.
* `Binary64.positionalForm_positional`, `Binary64.scientificForm_scientific`: their forms.
-/

namespace LatencyLog

set_option autoImplicit false

/-! ## Texts that denote decimals -/

def AllDigits (cs : List Char) : Prop := ∀ c ∈ cs, c.isDigit = true

/-- The number that digits denote. -/
def naturalOf (digits : List Char) : Nat := Nat.ofDigitChars 10 digits 0

namespace Decimal

/-- The number that one or more digits denote. -/
def natural? (text : List Char) : Option Nat :=
  if text ≠ [] ∧ text.all Char.isDigit then some (naturalOf text) else none

/-- The number that one or more digits denote after a sign, or without one. -/
def integer? : List Char → Option ℤ
  | '-' :: digits => (natural? digits).map fun (n : Nat) => -(n : ℤ)
  | '+' :: digits => (natural? digits).map fun (n : Nat) => (n : ℤ)
  | digits => (natural? digits).map fun (n : Nat) => (n : ℤ)

/-- The exponent written after the digits of a decimal. -/
def exponent? : List Char → Option ℤ
  | [] => some 0
  | mark :: power => if mark = 'e' then integer? power else none

/-- The digits after a point, if there is one, and what follows them. -/
def fractionOf : List Char → List Char × List Char
  | [] => ([], [])
  | c :: rest =>
    if c = '.' then (rest.takeWhile Char.isDigit, rest.dropWhile Char.isDigit) else ([], c :: rest)

/-- The decimal that a text denotes. -/
def ofText? (text : List Char) : Option Decimal :=
  let whole := text.takeWhile Char.isDigit
  let (fraction, power) := fractionOf (text.dropWhile Char.isDigit)
  if whole ++ fraction = [] then none
  else (exponent? power).map fun e => ⟨naturalOf (whole ++ fraction), e - fraction.length⟩

end Decimal

/-! ## Forms -/

/-- One or more digits on both sides of a point. -/
inductive PositionalForm : List Char → Prop
  | mk {whole fraction : List Char} (whole_ne_nil : whole ≠ []) (whole_digits : AllDigits whole)
      (fraction_ne_nil : fraction ≠ []) (fraction_digits : AllDigits fraction) :
      PositionalForm (whole ++ '.' :: fraction)

/-- A point and digits, or nothing where there are no digits. -/
def pointed (fraction : List Char) : List Char := if fraction = [] then [] else '.' :: fraction

/-- One digit other than zero, after it perhaps a point and digits of which the last is not zero,
and an exponent with a sign and some count of digits. -/
inductive ScientificForm (exponentDigits : Nat) : List Char → Prop
  | mk {lead sign : Char} {fraction exponent : List Char} (lead_digit : lead.isDigit = true)
      (lead_ne_zero : lead ≠ '0') (fraction_digits : AllDigits fraction)
      (fraction_last : fraction.getLast? ≠ some '0') (sign_eq : sign = '+' ∨ sign = '-')
      (exponent_all : AllDigits exponent) (exponent_length : exponent.length = exponentDigits) :
      ScientificForm exponentDigits (lead :: (pointed fraction ++ 'e' :: sign :: exponent))

theorem PositionalForm.exists_digit {body : List Char} (h : PositionalForm body) :
    ∃ c rest, body = c :: rest ∧ c.isDigit = true := by
  obtain ⟨whole_ne_nil, whole_digits, -, -⟩ := h
  obtain ⟨c, rest, rfl⟩ := List.exists_cons_of_ne_nil whole_ne_nil
  exact ⟨c, _, rfl, whole_digits c List.mem_cons_self⟩

theorem ScientificForm.exists_digit {n : Nat} {body : List Char} (h : ScientificForm n body) :
    ∃ c rest, body = c :: rest ∧ c.isDigit = true := by
  obtain ⟨lead_digit, -, -, -, -, -, -⟩ := h
  exact ⟨_, _, rfl, lead_digit⟩

/-! ## Digits -/

theorem AllDigits.append {xs ys : List Char} (hx : AllDigits xs) (hy : AllDigits ys) :
    AllDigits (xs ++ ys) := fun c member =>
  (List.mem_append.mp member).elim (hx c) (hy c)

theorem allDigits_zeros (n : Nat) : AllDigits (List.replicate n '0') := fun c member => by
  rw [List.eq_of_mem_replicate member]
  rfl

theorem allDigits_toDigits (n : Nat) : AllDigits (Nat.toDigits 10 n) := fun _ member =>
  Nat.isDigit_of_mem_toDigits (by decide) (by decide) member

theorem takeWhile_digits {ds rest : List Char} (digits : AllDigits ds)
    (stop : ∀ c ∈ rest.head?, c.isDigit = false) :
    (ds ++ rest).takeWhile Char.isDigit = ds ∧ (ds ++ rest).dropWhile Char.isDigit = rest := by
  rw [List.takeWhile_append_of_pos digits, List.dropWhile_append_of_pos digits]
  cases rest with
  | nil => exact ⟨List.append_nil ds, rfl⟩
  | cons c rest =>
    have notDigit : ¬c.isDigit = true := by rw [stop c rfl]; exact Bool.false_ne_true
    rw [List.takeWhile_cons_of_neg notDigit, List.dropWhile_cons_of_neg notDigit]
    exact ⟨List.append_nil ds, rfl⟩

theorem naturalOf_append (xs ys : List Char) :
    naturalOf (xs ++ ys) = 10 ^ ys.length * naturalOf xs + naturalOf ys := by
  rw [naturalOf, Nat.ofDigitChars_append, Nat.ofDigitChars_eq_ofDigitChars_zero]
  rfl

theorem naturalOf_zeros (n : Nat) : naturalOf (List.replicate n '0') = 0 := by
  rw [naturalOf, Nat.ofDigitChars_replicate_zero, Nat.mul_zero]

theorem naturalOf_toDigits (n : Nat) : naturalOf (Nat.toDigits 10 n) = n :=
  Nat.ofDigitChars_ten_toDigits

theorem exists_toDigits_eq_cons {n : Nat} (positive : 0 < n) :
    ∃ lead rest, Nat.toDigits 10 n = lead :: rest ∧ lead ≠ '0' := by
  induction n using Nat.strongRecOn with
  | ind n ih =>
    rw [Nat.toDigits_eq_if (by decide)]
    split
    next small =>
      have other : ∀ k < 10, 0 < k → Nat.digitChar k ≠ '0' := by decide
      exact ⟨_, [], rfl, other n small positive⟩
    next large =>
      obtain ⟨lead, rest, written, other⟩ := ih (n / 10) (by omega) (by omega)
      exact ⟨lead, rest ++ [Nat.digitChar (n % 10)], by rw [written, List.cons_append], other⟩

/-! ## Texts with their parts -/

namespace Decimal

theorem ofText?_of_point {whole fraction power : List Char} (nonempty : whole ≠ [])
    (wholeDigits : AllDigits whole) (fractionDigits : AllDigits fraction)
    (stop : ∀ c ∈ power.head?, c.isDigit = false) :
    ofText? (whole ++ '.' :: (fraction ++ power)) =
      (exponent? power).map fun e => ⟨naturalOf (whole ++ fraction), e - fraction.length⟩ := by
  have atPoint : ∀ c ∈ ('.' :: (fraction ++ power)).head?, c.isDigit = false := by
    rintro c ⟨⟩
    rfl
  obtain ⟨taken, dropped⟩ := takeWhile_digits wholeDigits atPoint
  obtain ⟨taken', dropped'⟩ := takeWhile_digits fractionDigits stop
  have digits : whole ++ fraction ≠ [] := List.append_ne_nil_of_left_ne_nil nonempty fraction
  simp only [ofText?, taken, dropped, fractionOf, taken', dropped', if_true, if_neg digits]

theorem ofText?_of_no_point {whole power : List Char} (nonempty : whole ≠ [])
    (wholeDigits : AllDigits whole) (stop : ∀ c ∈ power.head?, c.isDigit = false ∧ c ≠ '.') :
    ofText? (whole ++ power) = (exponent? power).map fun e => ⟨naturalOf whole, e⟩ := by
  obtain ⟨taken, dropped⟩ := takeWhile_digits wholeDigits fun c h => (stop c h).1
  have rest : fractionOf power = ([], power) := by
    cases power with
    | nil => rfl
    | cons c power => rw [fractionOf, if_neg (stop c rfl).2]
  simp only [ofText?, taken, dropped, rest, List.append_nil, if_neg nonempty, List.length_nil,
    Nat.cast_zero, sub_zero]

/-! ## Digits and point of a decimal -/

/-- The value of digits with a point after the first `point` of them. -/
def placed (digits : List Char) (point : ℤ) : ℚ :=
  naturalOf digits * 10 ^ (point - digits.length)

theorem exists_toDigits_eq_significant (d : Decimal) :
    ∃ zeros, Nat.toDigits 10 d.digits = d.significant ++ List.replicate zeros '0' := by
  have split := List.takeWhile_append_dropWhile (p := (· == '0'))
    (l := (Nat.toDigits 10 d.digits).reverse)
  have zeros : ∀ c ∈ (Nat.toDigits 10 d.digits).reverse.takeWhile (· == '0'), c = '0' := by
    intro c member
    have passes := List.mem_takeWhile_imp member
    exact eq_of_beq passes
  refine ⟨((Nat.toDigits 10 d.digits).reverse.takeWhile (· == '0')).length, ?_⟩
  rw [← List.reverse_replicate, ← List.eq_replicate_of_mem zeros, significant,
    ← List.reverse_append, split, List.reverse_reverse]

theorem allDigits_significant (d : Decimal) : AllDigits d.significant := by
  obtain ⟨zeros, split⟩ := exists_toDigits_eq_significant d
  intro c member
  have inside : c ∈ Nat.toDigits 10 d.digits := split ▸ List.mem_append_left _ member
  exact allDigits_toDigits _ c inside

theorem getLast?_significant (d : Decimal) : d.significant.getLast? ≠ some '0' := by
  intro zero
  rw [significant, List.getLast?_reverse] at zero
  have stop := List.head?_dropWhile_not (· == '0') (Nat.toDigits 10 d.digits).reverse
  rw [zero] at stop
  cases stop

theorem exists_significant_eq_cons {d : Decimal} (positive : 0 < d.digits) :
    ∃ lead rest, d.significant = lead :: rest ∧ lead ≠ '0' := by
  obtain ⟨zeros, split⟩ := exists_toDigits_eq_significant d
  obtain ⟨lead, rest, written, other⟩ := exists_toDigits_eq_cons positive
  rw [written] at split
  cases digits : d.significant with
  | nil =>
    rw [digits, List.nil_append] at split
    have zero : lead = '0' := List.eq_of_mem_replicate (split ▸ List.mem_cons_self)
    exact absurd zero other
  | cons c later =>
    rw [digits, List.cons_append, List.cons.injEq] at split
    exact ⟨c, later, rfl, split.1 ▸ other⟩

theorem significant_ne_nil {d : Decimal} (positive : 0 < d.digits) : d.significant ≠ [] := by
  obtain ⟨lead, rest, written, -⟩ := exists_significant_eq_cons positive
  rw [written]
  exact List.cons_ne_nil lead rest

theorem digits_eq_of_split {d : Decimal} {zeros : Nat}
    (split : Nat.toDigits 10 d.digits = d.significant ++ List.replicate zeros '0') :
    d.digits = 10 ^ zeros * naturalOf d.significant := by
  rw [← naturalOf_toDigits d.digits, split, naturalOf_append, naturalOf_zeros, Nat.add_zero,
    List.length_replicate]

theorem naturalOf_significant_lt (d : Decimal) :
    naturalOf d.significant < 10 ^ d.significant.length := by
  obtain ⟨zeros, split⟩ := exists_toDigits_eq_significant d
  have whole := lt_ten_pow_length d.digits
  rw [split, List.length_append, List.length_replicate, digits_eq_of_split split, pow_add,
    mul_comm] at whole
  exact lt_of_mul_lt_mul_right whole (Nat.zero_le _)

/-- The significant digits and the place of the point determine the value of a decimal. -/
theorem placed_significant (d : Decimal) : placed d.significant d.point = d.toRat := by
  obtain ⟨zeros, split⟩ := exists_toDigits_eq_significant d
  have places : d.point - d.significant.length = zeros + d.exponent := by
    rw [point, split, List.length_append, List.length_replicate]
    push_cast
    ring
  have value : (d.digits : ℚ) = 10 ^ zeros * naturalOf d.significant := by
    exact_mod_cast digits_eq_of_split split
  rw [placed, places, toRat, value, zpow_add₀ (by norm_num), zpow_natCast]
  ring

theorem placed_zeros_append (ds : List Char) (p : ℤ) (n : Nat) :
    placed (List.replicate n '0' ++ ds) (p + n) = placed ds p := by
  have exponent : p + n - (List.replicate n '0' ++ ds).length = p - ds.length := by
    rw [List.length_append, List.length_replicate]
    push_cast
    ring
  rw [placed, placed, exponent, naturalOf_append, naturalOf_zeros, Nat.mul_zero, Nat.zero_add]

theorem placed_append_zeros (ds : List Char) (p : ℤ) (n : Nat) :
    placed (ds ++ List.replicate n '0') p = placed ds p := by
  have exponent : p - ds.length = n + (p - (ds ++ List.replicate n '0').length) := by
    rw [List.length_append, List.length_replicate]
    push_cast
    ring
  rw [placed, placed, exponent, naturalOf_append, naturalOf_zeros, Nat.add_zero,
    List.length_replicate, zpow_add₀ (by norm_num), zpow_natCast]
  push_cast
  ring

/-! ## Texts with a point or without one -/

theorem toRat_eq_placed {whole fraction : List Char} (e : ℤ) :
    toRat ⟨naturalOf (whole ++ fraction), e - fraction.length⟩ =
      placed (whole ++ fraction) (whole.length + e) := by
  have exponent : (whole.length + e : ℤ) - (whole ++ fraction).length = e - fraction.length := by
    rw [List.length_append]
    push_cast
    ring
  rw [toRat, placed, exponent]

theorem exists_ofText?_pointed {whole fraction power : List Char} {e : ℤ}
    (nonempty : whole ≠ []) (wholeDigits : AllDigits whole) (fractionDigits : AllDigits fraction)
    (stop : ∀ c ∈ power.head?, c.isDigit = false ∧ c ≠ '.') (read : exponent? power = some e) :
    ∃ d, ofText? (whole ++ (pointed fraction ++ power)) = some d ∧
      d.toRat = placed (whole ++ fraction) (whole.length + e) := by
  refine ⟨_, ?_, toRat_eq_placed e⟩
  rw [pointed]
  split
  next none =>
    rw [none, List.nil_append, ofText?_of_no_point nonempty wholeDigits stop, read, List.append_nil,
      List.length_nil, Nat.cast_zero, sub_zero]
    rfl
  next =>
    rw [List.cons_append, ofText?_of_point nonempty wholeDigits fractionDigits
      fun c h => (stop c h).1, read]
    rfl

end Decimal

/-! ## Layouts -/

namespace Binary64

variable {ds : List Char}

/-- A positional layout consists of two runs of digits, which stand for the digits that it is made
of, with the point at its place. -/
theorem exists_positional_eq (nonempty : ds ≠ []) (digits : AllDigits ds) (p : ℤ) :
    ∃ whole fraction, positional ds p = whole ++ '.' :: fraction ∧
      whole ≠ [] ∧ AllDigits whole ∧ fraction ≠ [] ∧ AllDigits fraction ∧
      Decimal.placed (whole ++ fraction) whole.length = Decimal.placed ds p := by
  rw [positional]
  split
  next before =>
    refine ⟨['0'], List.replicate (-p).toNat '0' ++ ds, rfl, List.cons_ne_nil _ _,
      allDigits_zeros 1, List.append_ne_nil_of_right_ne_nil _ nonempty,
      (allDigits_zeros _).append digits, ?_⟩
    have place : ((['0'].length : Nat) : ℤ) = p + ((-p).toNat + 1 : Nat) := by
      rw [List.length_singleton]
      omega
    rw [place, ← Decimal.placed_zeros_append ds p ((-p).toNat + 1), List.replicate_succ]
    rfl
  next =>
    split
    next after =>
      refine ⟨ds ++ List.replicate (p.toNat - ds.length) '0', ['0'], rfl,
        List.append_ne_nil_of_left_ne_nil nonempty _, digits.append (allDigits_zeros _),
        List.cons_ne_nil _ _, allDigits_zeros 1, ?_⟩
      have place : ((ds ++ List.replicate (p.toNat - ds.length) '0').length : ℤ) = p := by
        rw [List.length_append, List.length_replicate]
        omega
      rw [place, ← Decimal.placed_append_zeros ds p (p.toNat - ds.length + 1),
        List.replicate_succ', List.append_assoc]
    next among =>
      have place : ((ds.take p.toNat).length : ℤ) = p := by
        rw [List.length_take]
        omega
      refine ⟨ds.take p.toNat, ds.drop p.toNat, rfl, ?_,
        fun c member => digits c (List.mem_of_mem_take member), ?_,
        fun c member => digits c (List.mem_of_mem_drop member), ?_⟩
      · exact List.ne_nil_of_length_pos (by omega)
      · refine List.ne_nil_of_length_pos ?_
        rw [List.length_drop]
        omega
      · rw [place, List.take_append_drop]

theorem positionalForm_positional (nonempty : ds ≠ []) (digits : AllDigits ds) (p : ℤ) :
    PositionalForm (positional ds p) := by
  obtain ⟨whole, fraction, written, some, wholeDigits, some', fractionDigits, -⟩ :=
    exists_positional_eq nonempty digits p
  rw [written]
  exact ⟨some, wholeDigits, some', fractionDigits⟩

theorem exists_ofText?_positional (nonempty : ds ≠ []) (digits : AllDigits ds) (p : ℤ) :
    ∃ d, Decimal.ofText? (positional ds p) = some d ∧ d.toRat = Decimal.placed ds p := by
  obtain ⟨whole, fraction, written, some, wholeDigits, some', fractionDigits, value⟩ :=
    exists_positional_eq nonempty digits p
  have noPower : ∀ c ∈ ([] : List Char).head?, c.isDigit = false ∧ c ≠ '.' := by rintro c ⟨⟩
  have read := Decimal.exists_ofText?_pointed some wholeDigits fractionDigits noPower rfl
  rw [pointed, if_neg some', List.append_nil, add_zero, value] at read
  rw [written]
  exact read

/-- An exponent is written with a sign and at least two digits, and they denote it. -/
theorem exponentText_spec (e : ℤ) :
    ∃ sign digits, exponentText e = sign :: digits ∧ (sign = '+' ∨ sign = '-') ∧
      AllDigits digits ∧ digits.length = max 2 (Nat.toDigits 10 e.natAbs).length ∧
      Decimal.integer? (sign :: digits) = some e := by
  have digits : AllDigits (List.replicate (2 - (Nat.toDigits 10 e.natAbs).length) '0' ++
      Nat.toDigits 10 e.natAbs) := (allDigits_zeros _).append (allDigits_toDigits _)
  have number : Decimal.natural? (List.replicate (2 - (Nat.toDigits 10 e.natAbs).length) '0' ++
      Nat.toDigits 10 e.natAbs) = some e.natAbs := by
    have nonempty := List.append_ne_nil_of_right_ne_nil
      (List.replicate (2 - (Nat.toDigits 10 e.natAbs).length) '0')
      (Nat.toDigits_ne_nil (n := e.natAbs) (b := 10))
    rw [Decimal.natural?, if_pos ⟨nonempty, List.all_eq_true.mpr digits⟩, naturalOf_append,
      naturalOf_zeros, naturalOf_toDigits, Nat.mul_zero, Nat.zero_add]
  refine ⟨if e < 0 then '-' else '+', _, rfl, ?_, digits, ?_, ?_⟩
  · split
    · exact Or.inr rfl
    · exact Or.inl rfl
  · rw [List.length_append, List.length_replicate]
    omega
  · by_cases negative : e < 0
    · rw [if_pos negative, Decimal.integer?, number, Option.map_some, Option.some.injEq]
      omega
    · rw [if_neg negative, Decimal.integer?, number, Option.map_some, Option.some.injEq]
      omega

theorem scientific_cons (lead : Char) (rest : List Char) (p : ℤ) :
    scientific (lead :: rest) p = lead :: (pointed rest ++ 'e' :: exponentText (p - 1)) := by
  cases rest <;> rfl

theorem scientificForm_scientific {lead : Char} {rest : List Char} (p : ℤ)
    (digits : AllDigits (lead :: rest)) (lead_ne_zero : lead ≠ '0')
    (last : (lead :: rest).getLast? ≠ some '0') :
    ScientificForm (max 2 (Nat.toDigits 10 (p - 1).natAbs).length)
      (scientific (lead :: rest) p) := by
  obtain ⟨sign, exponent, written, sign_eq, all, length, -⟩ := exponentText_spec (p - 1)
  rw [scientific_cons, written]
  refine ⟨digits lead List.mem_cons_self, lead_ne_zero,
    fun c member => digits c (List.mem_cons_of_mem lead member), ?_, sign_eq, all, length⟩
  intro zero
  rw [List.getLast?_cons, zero] at last
  exact last rfl

theorem exists_ofText?_scientific (nonempty : ds ≠ []) (digits : AllDigits ds) (p : ℤ) :
    ∃ d, Decimal.ofText? (scientific ds p) = some d ∧ d.toRat = Decimal.placed ds p := by
  obtain ⟨lead, rest, rfl⟩ := List.exists_cons_of_ne_nil nonempty
  obtain ⟨sign, exponent, written, -, -, -, number⟩ := exponentText_spec (p - 1)
  have read : Decimal.exponent? ('e' :: sign :: exponent) = some (p - 1) := number
  have leadDigit : AllDigits [lead] := by
    intro c member
    rw [List.mem_singleton.mp member]
    exact digits lead List.mem_cons_self
  have parsed := Decimal.exists_ofText?_pointed (List.cons_ne_nil lead []) leadDigit
    (fun c member => digits c (List.mem_cons_of_mem lead member))
    (by rintro c ⟨⟩; exact ⟨rfl, by decide⟩) read
  rw [List.length_singleton, Nat.cast_one, add_sub_cancel] at parsed
  rw [scientific_cons, written]
  exact parsed

end Binary64

end LatencyLog
