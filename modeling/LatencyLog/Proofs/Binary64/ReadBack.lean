import LatencyLog.Proofs.Binary64.Layouts

/-! # Texts of numbers read back

* `Binary64.IsReading`: a text denotes a number: a sign, and `inf` or a decimal that is rounded to
  the nearest number.
* `Binary64.IsReading.unique`: it denotes no more than one.
* `Binary64.isReading_text_iff`: the text of a number denotes this number.
* `Binary64.text_ne_zero`: no number is written as an integer zero.
* `Binary64.positionalForm_magnitudeText`, `Binary64.scientificForm_magnitudeText`: which magnitudes
  are written in which form.
-/

namespace LatencyLog.Binary64

set_option autoImplicit false

/-! ## Readings -/

def signed (negative : Bool) (body : List Char) : List Char :=
  if negative then '-' :: body else body

theorem signed_inj {negative negative' : Bool} {body body' : List Char}
    (plain : ∀ rest, body ≠ '-' :: rest) (plain' : ∀ rest, body' ≠ '-' :: rest)
    (same : signed negative body = signed negative' body') :
    negative = negative' ∧ body = body' := by
  cases negative with
  | false =>
    cases negative' with
    | false => exact ⟨rfl, same⟩
    | true => exact absurd same (plain body')
  | true =>
    cases negative' with
    | false => exact absurd same.symm (plain' body)
    | true => exact ⟨rfl, (List.cons.inj same).2⟩

/-- What begins with a digit after its sign begins with no other character. -/
theorem isDigit_of_signed_eq {negative negative' : Bool} {c d : Char} {rest after : List Char}
    (digit : c.isDigit = true) (other : d ≠ '-')
    (same : signed negative (c :: rest) = signed negative' (d :: after)) : d.isDigit = true := by
  have plain : ∀ rest', c :: rest ≠ '-' :: rest' := by
    rintro rest' ⟨⟩
    cases digit
  have plain' : ∀ rest', d :: after ≠ '-' :: rest' := fun _ equal => other (List.cons.inj equal).1
  obtain ⟨-, equal⟩ := signed_inj plain plain' same
  exact (List.cons.inj equal).1 ▸ digit

/-- A text without sign denotes a magnitude. -/
def IsReadingOf (body : List Char) (m : Nat) : Prop :=
  (body = ['i', 'n', 'f'] ∧ m = infinity) ∨
    ∃ d, Decimal.ofText? body = some d ∧ IsNearest d.toRat m

/-- A text denotes a number. -/
def IsReading (text : List Char) (v : Binary64) : Prop :=
  ∃ body, text = signed v.negative body ∧ IsReadingOf body v.magnitude

theorem ofText?_minus (rest : List Char) : Decimal.ofText? ('-' :: rest) = none := rfl

theorem ofText?_inf : Decimal.ofText? ['i', 'n', 'f'] = none := rfl

theorem IsReadingOf.ne_minus {body : List Char} {m : Nat} (h : IsReadingOf body m)
    (rest : List Char) : body ≠ '-' :: rest := by
  rintro rfl
  rcases h with ⟨same, -⟩ | ⟨d, read, -⟩
  · cases same
  · cases (ofText?_minus rest).symm.trans read

theorem IsReadingOf.unique {body : List Char} {m n : Nat} (h : IsReadingOf body m)
    (h' : IsReadingOf body n) : m = n := by
  rcases h with ⟨rfl, rfl⟩ | ⟨d, read, nearest⟩
  · rcases h' with ⟨-, rfl⟩ | ⟨d, read, -⟩
    · rfl
    · cases ofText?_inf.symm.trans read
  · rcases h' with ⟨rfl, -⟩ | ⟨d', read', nearest'⟩
    · cases ofText?_inf.symm.trans read
    · obtain rfl := Option.some.inj (read.symm.trans read')
      exact nearest.unique nearest'

theorem IsReading.unique {text : List Char} {v w : Binary64} (h : IsReading text v)
    (h' : IsReading text w) : v = w := by
  obtain ⟨vNegative, vMagnitude, vLt⟩ := v
  obtain ⟨wNegative, wMagnitude, wLt⟩ := w
  obtain ⟨body, rfl, reads⟩ := h
  obtain ⟨body', same, reads'⟩ := h'
  obtain ⟨rfl, rfl⟩ := signed_inj reads.ne_minus reads'.ne_minus same
  obtain rfl : vMagnitude = wMagnitude := reads.unique reads'
  rfl

/-! ## Magnitudes -/

/-- The values that are written positionally. -/
def InPositionalRange (m : Nat) : Prop := m = 0 ∨ 1 / 10 ^ 4 ≤ valueOf m ∧ valueOf m < 10 ^ 16

theorem isPositional_iff (m : Nat) : isPositional m = true ↔ InPositionalRange m := by
  have lower : unitsPerOne ≤ units m * 10 ^ 4 ↔ 1 / 10 ^ 4 ≤ valueOf m := by
    rw [valueOf, div_le_div_iff₀ (by positivity) unitsPerOne_pos, one_mul, ← Nat.cast_le (α := ℚ)]
    push_cast
    rfl
  have upper : units m < 10 ^ 16 * unitsPerOne ↔ valueOf m < 10 ^ 16 := by
    rw [valueOf, div_lt_iff₀ unitsPerOne_pos, ← Nat.cast_lt (α := ℚ)]
    push_cast
    rfl
  rw [isPositional, InPositionalRange, Bool.or_eq_true, Bool.and_eq_true, decide_eq_true_eq,
    decide_eq_true_eq, beq_iff_eq, lower, upper]

variable {m : Nat}

theorem magnitudeText_infinity : magnitudeText infinity = ['i', 'n', 'f'] := by
  rw [magnitudeText, if_neg (lt_irrefl _), if_pos rfl]

theorem magnitudeText_of_finite (positive : 0 < m) (finite : m < infinity) :
    magnitudeText m =
      if isPositional m then
        positional (Decimal.shortest m).significant (Decimal.shortest m).point
      else scientific (Decimal.shortest m).significant (Decimal.shortest m).point := by
  rw [magnitudeText, if_neg finite.le.not_gt, if_neg finite.ne, if_neg positive.ne']

theorem magnitudeText_zero : magnitudeText 0 = positional ['0'] 1 := by
  rw [magnitudeText, if_neg (by decide), if_neg (by decide), if_pos rfl]

/-- The text of a finite magnitude other than zero is its shortest decimal. -/
theorem exists_ofText?_shortest (positive : 0 < m) (finite : m < infinity) :
    ∃ d, Decimal.ofText? (magnitudeText m) = some d ∧ d.toRat = (Decimal.shortest m).toRat := by
  have nonempty := Decimal.significant_ne_nil (Decimal.digits_shortest_pos positive finite.le)
  have all := Decimal.allDigits_significant (Decimal.shortest m)
  rw [magnitudeText_of_finite positive finite, ← Decimal.placed_significant]
  split
  · exact exists_ofText?_positional nonempty all (Decimal.shortest m).point
  · exact exists_ofText?_scientific nonempty all (Decimal.shortest m).point

/-- The text of a finite magnitude is a decimal nearest to which it is. -/
theorem exists_ofText?_magnitudeText (finite : m < infinity) :
    ∃ d, Decimal.ofText? (magnitudeText m) = some d ∧ IsNearest d.toRat m := by
  rcases Nat.eq_zero_or_pos m with rfl | positive
  · obtain ⟨d, read, value⟩ := exists_ofText?_positional (List.cons_ne_nil '0' [])
      (allDigits_zeros 1) 1
    refine ⟨d, magnitudeText_zero ▸ read, ?_⟩
    have zero : d.toRat = valueOf 0 := by
      rw [value, Decimal.placed, valueOf_zero]
      exact zero_mul _
    rw [zero]
    exact isNearest_valueOf (Nat.zero_le _)
  · obtain ⟨d, read, value⟩ := exists_ofText?_shortest positive finite
    exact ⟨d, read, value ▸ Decimal.isNearest_shortest positive finite.le⟩

theorem isReadingOf_magnitudeText (number : m ≤ infinity) : IsReadingOf (magnitudeText m) m := by
  rcases number.lt_or_eq with finite | rfl
  · exact Or.inr (exists_ofText?_magnitudeText finite)
  · exact Or.inl ⟨magnitudeText_infinity, rfl⟩

theorem positionalForm_magnitudeText (finite : m < infinity) (range : InPositionalRange m) :
    PositionalForm (magnitudeText m) := by
  rcases Nat.eq_zero_or_pos m with rfl | positive
  · rw [magnitudeText_zero]
    exact positionalForm_positional (List.cons_ne_nil '0' []) (allDigits_zeros 1) 1
  · have nonempty := Decimal.significant_ne_nil (Decimal.digits_shortest_pos positive finite.le)
    rw [magnitudeText_of_finite positive finite, if_pos ((isPositional_iff m).mpr range)]
    exact positionalForm_positional nonempty (Decimal.allDigits_significant _) _

theorem scientificForm_magnitudeText (finite : m < infinity) (range : ¬InPositionalRange m) :
    ScientificForm (max 2 (Nat.toDigits 10 ((Decimal.shortest m).point - 1).natAbs).length)
      (magnitudeText m) := by
  have positive : 0 < m := Nat.pos_of_ne_zero fun zero => range (Or.inl zero)
  obtain ⟨lead, rest, digits, other⟩ :=
    Decimal.exists_significant_eq_cons (Decimal.digits_shortest_pos positive finite.le)
  have all := Decimal.allDigits_significant (Decimal.shortest m)
  have last := Decimal.getLast?_significant (Decimal.shortest m)
  rw [digits] at all last
  rw [magnitudeText_of_finite positive finite, if_neg ((isPositional_iff m).not.mpr range), digits]
  exact scientificForm_scientific _ all other last

/-! ## Numbers -/

theorem toList_text {v : Binary64} (number : v.isNaN = false) :
    v.text.toList = signed v.negative (magnitudeText v.magnitude) := by
  rw [text, String.toList_ofList, number, Bool.not_false, Bool.and_true]
  rfl

/-- **The text of a number denotes this number and no other.** -/
theorem isReading_text_iff {v : Binary64} (number : v.isNaN = false) (w : Binary64) :
    IsReading v.text.toList w ↔ w = v := by
  have le : v.magnitude ≤ infinity := not_lt.mp (of_decide_eq_false number)
  have reads : IsReading v.text.toList v :=
    ⟨_, toList_text number, isReadingOf_magnitudeText le⟩
  constructor
  · intro other
    exact other.unique reads
  · rintro rfl
    exact reads

/-! ## Integers -/

theorem isReading_integer_zero : IsReading ['0'] (zero false) := by
  refine ⟨['0'], rfl, Or.inr ⟨⟨0, 0⟩, rfl, ?_⟩⟩
  have zero : (⟨0, 0⟩ : Decimal).toRat = valueOf 0 := by
    rw [valueOf_zero, Decimal.toRat]
    exact zero_mul _
  rw [zero]
  exact isNearest_valueOf (Nat.zero_le _)

/-- Zero is never written as an integer. -/
theorem text_ne_zero (v : Binary64) : v.text ≠ "0" := by
  intro same
  cases number : v.isNaN with
  | true =>
    have beyond : infinity < v.magnitude := of_decide_eq_true number
    rw [text, number, Bool.not_true, Bool.and_false, magnitudeText, if_pos beyond] at same
    revert same
    decide
  | false =>
    -- The text would denote the positive zero, and that is written with a point.
    have reads : IsReading v.text.toList (zero false) := same ▸ isReading_integer_zero
    obtain rfl := (isReading_text_iff number _).mp reads
    revert same
    decide +kernel

end LatencyLog.Binary64
