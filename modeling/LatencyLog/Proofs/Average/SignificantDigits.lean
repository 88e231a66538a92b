import LatencyLog.Proofs.Average.Neighbours
import LatencyLog.Proofs.Average.Text
import LatencyLog.Proofs.Binary64.Optimality

/-! # The digits that are printed

* `significantDigits`: the digits of a text before its exponent, without the zeros at both ends.
* `Binary64.significantDigits_magnitudeText`: those of a magnitude are the digits of its shortest
  decimal, in either layout.
* `Binary64.denoted?`: the number that a text denotes.
* `Binary64.IsBest`: no number of fewer digits is rounded to the same binary64 number, and none of
  as many digits that is rounded to it is nearer.
* `Average.text_isBest`: the printed digits are the best ones.
-/

namespace LatencyLog

set_option autoImplicit false

/-! ## Significant digits -/

/-- The digits of a text before its exponent. -/
def mantissaDigits (text : List Char) : List Char :=
  (text.takeWhile (· != 'e')).filter Char.isDigit

/-- Digits without the zeros at both ends. -/
def withoutOuterZeros (digits : List Char) : List Char :=
  (digits.dropWhile (· == '0')).rdropWhile (· == '0')

/-- The digits of a text before its exponent, without the zeros that only tell where the point
stands. -/
def significantDigits (text : List Char) : List Char := withoutOuterZeros (mantissaDigits text)

section

variable {ds : List Char}

theorem dropWhile_zeros_append (first : ds.head? ≠ some '0') (n : Nat) :
    (List.replicate n '0' ++ ds).dropWhile (· == '0') = ds := by
  have zeros : ∀ c ∈ List.replicate n '0', (c == '0') = true := fun c member => by
    rw [List.eq_of_mem_replicate member]
    rfl
  rw [List.dropWhile_append_of_pos zeros]
  cases ds with
  | nil => rfl
  | cons c rest =>
    have other : ¬(c == '0') = true := fun same => first (by rw [eq_of_beq same, List.head?_cons])
    exact List.dropWhile_cons_of_neg other

theorem withoutOuterZeros_filled (nonempty : ds ≠ []) (first : ds.head? ≠ some '0')
    (last : ds.getLast? ≠ some '0') (before after : Nat) :
    withoutOuterZeros (List.replicate before '0' ++ ds ++ List.replicate after '0') = ds := by
  have head : (ds ++ List.replicate after '0').head? ≠ some '0' := by
    rwa [List.head?_append_of_ne_nil _ nonempty]
  rw [withoutOuterZeros, List.append_assoc, dropWhile_zeros_append head, List.rdropWhile,
    List.reverse_append, List.reverse_replicate,
    dropWhile_zeros_append (by rwa [List.head?_reverse]), List.reverse_reverse]

theorem AllDigits.filter_eq (digits : AllDigits ds) : ds.filter Char.isDigit = ds :=
  List.filter_eq_self.mpr digits

theorem AllDigits.no_exponent (digits : AllDigits ds) : 'e' ∉ ds := fun member => by
  have digit := digits 'e' member
  revert digit
  decide

theorem mantissaDigits_of_plain (plain : 'e' ∉ ds) (power : List Char) :
    mantissaDigits ds = ds.filter Char.isDigit ∧
      mantissaDigits (ds ++ 'e' :: power) = ds.filter Char.isDigit := by
  have passes : ∀ c ∈ ds, (c != 'e') = true := fun c member =>
    bne_iff_ne.mpr fun same => plain (same ▸ member)
  rw [mantissaDigits, mantissaDigits, List.takeWhile_eq_self_iff.mpr passes,
    List.takeWhile_append_of_pos passes, List.takeWhile_cons_of_neg (by decide), List.append_nil]
  exact ⟨rfl, rfl⟩

/-- A point among digits is no digit and begins no exponent. -/
theorem mantissaDigits_of_point {whole fraction : List Char} (wholeDigits : AllDigits whole)
    (fractionDigits : AllDigits fraction) (power : List Char) :
    mantissaDigits (whole ++ '.' :: fraction) = whole ++ fraction ∧
      mantissaDigits (whole ++ '.' :: fraction ++ 'e' :: power) = whole ++ fraction := by
  have plain : 'e' ∉ whole ++ '.' :: fraction := by
    intro member
    rcases List.mem_append.mp member with inside | rest
    · exact wholeDigits.no_exponent inside
    · exact fractionDigits.no_exponent (List.mem_of_ne_of_mem (by decide) rest)
  have digits : (whole ++ '.' :: fraction).filter Char.isDigit = whole ++ fraction := by
    rw [List.filter_append, wholeDigits.filter_eq, List.filter_cons_of_neg (by decide),
      fractionDigits.filter_eq]
  have read := mantissaDigits_of_plain plain power
  rwa [digits] at read

end

namespace Binary64

/-! ## Layouts -/

section

variable {ds : List Char}

theorem mantissaDigits_signed (negative : Bool) (body : List Char) :
    mantissaDigits (signed negative body) = mantissaDigits body := by
  cases negative with
  | false => rfl
  | true =>
    rw [signed, if_pos rfl, mantissaDigits, List.takeWhile_cons_of_pos (by decide),
      List.filter_cons_of_neg (by decide), mantissaDigits]

/-- The zeros that a positional layout adds stand before the digits or after them. -/
theorem exists_zeros_of_positional (digits : AllDigits ds) (p : ℤ) :
    ∃ before after, mantissaDigits (positional ds p) =
      List.replicate before '0' ++ ds ++ List.replicate after '0' := by
  rw [positional]
  split
  · refine ⟨(-p).toNat + 1, 0, ?_⟩
    rw [List.replicate_zero, List.append_nil, List.replicate_succ]
    exact (mantissaDigits_of_point (allDigits_zeros 1) ((allDigits_zeros _).append digits) []).1
  · split
    · refine ⟨0, p.toNat - ds.length + 1, ?_⟩
      rw [List.replicate_zero, List.nil_append, List.replicate_succ', ← List.append_assoc]
      exact (mantissaDigits_of_point (digits.append (allDigits_zeros _)) (allDigits_zeros 1) []).1
    · have before : AllDigits (ds.take p.toNat) := fun c member =>
        digits c (List.mem_of_mem_take member)
      have after : AllDigits (ds.drop p.toNat) := fun c member =>
        digits c (List.mem_of_mem_drop member)
      refine ⟨0, 0, ?_⟩
      rw [(mantissaDigits_of_point before after []).1, List.take_append_drop, List.replicate_zero,
        List.append_nil, List.nil_append]

theorem mantissaDigits_scientific (nonempty : ds ≠ []) (digits : AllDigits ds) (p : ℤ) :
    mantissaDigits (scientific ds p) = ds := by
  obtain ⟨lead, rest, rfl⟩ := List.exists_cons_of_ne_nil nonempty
  have leadDigit : AllDigits [lead] := fun c member => by
    rw [List.mem_singleton.mp member]
    exact digits lead List.mem_cons_self
  have restDigits : AllDigits rest := fun c member => digits c (List.mem_cons_of_mem lead member)
  rw [scientific_cons, pointed]
  split
  next none =>
    rw [none, List.nil_append]
    exact (mantissaDigits_of_plain leadDigit.no_exponent _).2.trans leadDigit.filter_eq
  next => exact (mantissaDigits_of_point leadDigit restDigits _).2

end

section

variable {m : Nat}

/-- The significant digits of a text are those of the shortest decimal, in either layout. -/
theorem significantDigits_magnitudeText (positive : 0 < m) (finite : m < infinity) :
    significantDigits (magnitudeText m) = (Decimal.shortest m).significant := by
  have digits := Decimal.digits_shortest_pos positive finite.le
  have all := Decimal.allDigits_significant (Decimal.shortest m)
  have nonempty := Decimal.significant_ne_nil digits
  have last := Decimal.getLast?_significant (Decimal.shortest m)
  have first : (Decimal.shortest m).significant.head? ≠ some '0' := by
    obtain ⟨lead, rest, written, other⟩ := Decimal.exists_significant_eq_cons digits
    rw [written, List.head?_cons]
    exact fun same => other (Option.some.inj same)
  rw [significantDigits, magnitudeText_of_finite positive finite]
  split
  · obtain ⟨before, after, zeros⟩ :=
      exists_zeros_of_positional all (Decimal.shortest m).point
    rw [zeros, withoutOuterZeros_filled nonempty first last]
  · have alone := withoutOuterZeros_filled nonempty first last 0 0
    rw [List.replicate_zero, List.append_nil, List.nil_append] at alone
    rw [mantissaDigits_scientific nonempty all, alone]

end

/-! ## Denoted numbers -/

/-- The number that a text denotes: a sign, or none, and a decimal. -/
def denoted? : List Char → Option ℚ
  | '-' :: body => (Decimal.ofText? body).map fun d => -d.toRat
  | body => (Decimal.ofText? body).map Decimal.toRat

theorem denoted?_signed {body : List Char} {d : Decimal} (read : Decimal.ofText? body = some d)
    (negative : Bool) :
    denoted? (signed negative body) = some (if negative then -d.toRat else d.toRat) := by
  cases negative with
  | true =>
    rw [signed, if_pos rfl, denoted?, read]
    rfl
  | false =>
    rw [signed, if_neg Bool.false_ne_true, denoted?, read]
    · rfl
    · rintro rest rfl
      cases (ofText?_minus rest).symm.trans read

/-! ## The best decimals -/

/-- A number that is rounded to `v` and written in `k` digits, while no number of fewer digits is
rounded to `v`, none of `k` digits that is lies nearer to `v`, and none that lies as near is of a
greater size. -/
structure IsBest (k : Nat) (x : ℚ) (v : Binary64) : Prop where
  reads : IsRounding x v
  written : WrittenIn k x
  shortest : ∀ j < k, ∀ y, WrittenIn j y → ¬IsRounding y v
  nearest : ∀ y, WrittenIn k y → IsRounding y v → |x - v.toRat| ≤ |y - v.toRat|
  greater : ∀ y, WrittenIn k y → IsRounding y v → |y - v.toRat| = |x - v.toRat| → |y| ≤ |x|

/-- A number lies as far from what it is rounded to as its size does from the size of that. -/
theorem IsRounding.abs_sub_toRat {q : ℚ} {v : Binary64} (h : IsRounding q v) :
    |q - v.toRat| = |(|q| - valueOf v.magnitude)| := by
  rcases lt_or_ge q 0 with negative | nonneg
  · rw [h.toRat_of_neg negative, abs_of_neg negative, ← abs_neg]
    congr 1
    ring
  · rw [h.toRat_of_nonneg nonneg, abs_of_nonneg nonneg]

section

variable {v : Binary64}

/-- The decimal of the printed digits, with the sign of the number. -/
def printed (v : Binary64) : ℚ :=
  if v.negative then -(Decimal.shortest v.magnitude).toRat
  else (Decimal.shortest v.magnitude).toRat

theorem toRat_shortest_pos {m : Nat} (positive : 0 < m) (finite : m ≤ infinity) :
    0 < (Decimal.shortest m).toRat :=
  mul_pos (by exact_mod_cast Decimal.digits_shortest_pos positive finite)
    (Decimal.ten_zpow_pos _)

theorem abs_printed (positive : 0 < v.magnitude) (finite : v.magnitude ≤ infinity) :
    |v.printed| = (Decimal.shortest v.magnitude).toRat := by
  have least := toRat_shortest_pos positive finite
  rw [printed]
  split
  · rw [abs_neg, abs_of_pos least]
  · exact abs_of_pos least

theorem isRounding_printed (positive : 0 < v.magnitude) (finite : v.magnitude ≤ infinity) :
    IsRounding v.printed v := by
  have least := toRat_shortest_pos positive finite
  constructor
  · rw [printed]
    cases v.negative with
    | false => exact (decide_eq_false least.not_gt).symm
    | true => exact (decide_eq_true (neg_neg_of_pos least)).symm
  · rw [abs_printed positive finite]
    exact Decimal.isNearest_shortest positive finite

theorem denoted?_text (positive : 0 < v.magnitude) (finite : v.magnitude < infinity) :
    denoted? v.text.toList = some v.printed := by
  obtain ⟨d, read, value⟩ := exists_ofText?_shortest positive finite
  rw [toList_text (decide_eq_false finite.le.not_gt), denoted?_signed read, value]
  rfl

theorem significantDigits_text (positive : 0 < v.magnitude) (finite : v.magnitude < infinity) :
    significantDigits v.text.toList = (Decimal.shortest v.magnitude).significant := by
  rw [toList_text (decide_eq_false finite.le.not_gt), significantDigits, mantissaDigits_signed]
  exact significantDigits_magnitudeText positive finite

theorem isBest_printed (positive : 0 < v.magnitude) (finite : v.magnitude ≤ infinity) :
    IsBest (Decimal.shortest v.magnitude).significant.length v.printed v := by
  obtain ⟨fewer, best⟩ := Decimal.shortest_is_best positive finite
  have size := abs_printed positive finite
  have reads := isRounding_printed positive finite
  refine ⟨reads, ?_, ?_, ?_, ?_⟩
  · rw [WrittenIn, size, ← Decimal.placed_significant]
    exact ⟨⟨_, _⟩, Decimal.naturalOf_significant_lt _, rfl⟩
  · rintro j less y ⟨d, few, value⟩ rounded
    exact fewer d j less few (value ▸ rounded.nearest)
  · rintro y ⟨d, few, value⟩ rounded
    rw [reads.abs_sub_toRat, rounded.abs_sub_toRat, size, value]
    exact (best d few (value ▸ rounded.nearest)).1
  · rintro y ⟨d, few, value⟩ rounded
    rw [reads.abs_sub_toRat, rounded.abs_sub_toRat, size, value]
    exact (best d few (value ▸ rounded.nearest)).2

end

end Binary64

open Binary64

namespace Average

/-- **The printed digits are the shortest and the nearest ones.** The text of the value of a finite
number other than zero denotes a number made of its significant digits and a power of ten. No number
of fewer digits is rounded to this binary64 number. Of those with as many digits that are, none is
nearer to it, and one as near is not of a greater size. -/
theorem text_isBest {v : Binary64} (isFinite : v.isFinite = true) (nonzero : v.isZero = false) :
    ∃ x, denoted? (value v).text.toList = some x ∧
      (∃ e : ℤ, |x| = naturalOf (significantDigits (value v).text.toList) * 10 ^ e) ∧
      IsBest (significantDigits (value v).text.toList).length x v := by
  have finite : v.magnitude < infinity := of_decide_eq_true isFinite
  have positive : 0 < v.magnitude := Nat.pos_of_ne_zero fun zero => by
    rw [isZero, zero] at nonzero
    cases nonzero
  have digits : significantDigits (value v).text.toList =
      (Decimal.shortest v.magnitude).significant := significantDigits_text positive finite
  refine ⟨v.printed, denoted?_text positive finite, ?_, ?_⟩
  · rw [digits, abs_printed positive finite.le, ← Decimal.placed_significant]
    exact ⟨_, rfl⟩
  · rw [digits]
    exact isBest_printed positive finite.le

/-- A number halfway between two decimals of seventeen digits: the greater one is printed. -/
theorem text_isBest_halfway :
    let v := Binary64.ofBits 0x430C6BF526340002
    v.isFinite = true ∧ v.isZero = false ∧ (value v).text = "1000000000000000.3" ∧
      IsBest 17 (10000000000000003 / 10) v := by
  intro v
  have written : (value v).text = "1000000000000000.3" := by decide +kernel
  obtain ⟨x, denotes, -, best⟩ := text_isBest (v := v) (by decide) (by decide)
  rw [written] at denotes best
  have digits : significantDigits "1000000000000000.3".toList = "10000000000000003".toList := by
    decide
  have read : Decimal.ofText? "1000000000000000.3".toList = some ⟨10000000000000003, -1⟩ := by
    decide
  have value : x = 10000000000000003 / 10 := by
    have number := denoted?_signed read false
    rw [signed, if_neg Bool.false_ne_true, if_neg Bool.false_ne_true, denotes,
      Option.some.injEq] at number
    rw [number, Decimal.toRat, zpow_neg_one]
    norm_num
  rw [digits, value] at best
  exact ⟨by decide, by decide, written, best⟩

end Average

end LatencyLog
