import LatencyLog.Proofs.Json.Derivations
import LatencyLog.Proofs.Record.Entries
import LatencyLog.Proofs.Record.Members
import LatencyLog.Proofs.Record.NumeralSamples
import LatencyLog.Proofs.Record.Rejection
import Mathlib.Data.String.Basic

/-! # Latencies as they are written

* `Outcome.WritesLatency`, `Outcome.QuotesLatency`: lines with a numeral as their last latency, or
  with a text between quotes.
* `Outcome.ofLine_of_exact_numeral`: integers of 64 bits and numerals of few digits are read
  exactly.
* `Outcome.IsOneAfterZeros`: numerals of few digits whose exponents are too large to be read.
* `Outcome.ofLine_near_numeral`: the sample of any numeral in a record is near to its value.
-/

namespace LatencyLog

set_option autoImplicit false

open Text

/-! ## Sizes -/

theorem length_le_utf8ByteSize (line : String) : line.toList.length ≤ line.utf8ByteSize := by
  rw [← String.utf8Len_toList]
  induction line.toList with
  | nil => exact Nat.zero_le _
  | cons c rest ih =>
    have size := c.utf8Size_pos
    rw [String.utf8Len_cons, List.length_cons]
    omega

namespace Json.Numeral

variable {n : Numeral}

theorem length_whole_lt (n : Numeral) : n.whole.length + 1 ≤ n.text.length := by
  simp only [text, tail, List.length_append, List.length_cons, List.length_map]
  omega

/-- A first digit, a point, the mark of the exponent and a digit of it stand beside the fraction. -/
theorem length_fraction_le {p : Power} (point : n.fraction ≠ []) (some : n.power = some p) :
    n.fraction.length + 4 ≤ n.text.length := by
  obtain ⟨d, rest, digits⟩ := List.exists_cons_of_ne_nil point
  have first : n.fractionText = '.' :: n.fraction.map digitChar := by rw [fractionText, digits]
  have last : n.powerText = p.text := by rw [powerText, some]
  simp only [text, tail, first, last, Power.text, List.length_append, List.length_cons,
    List.length_map]
  omega

end Json.Numeral

namespace Outcome

open Json

/-! ## Lines -/

theorem ofLine_of_lastLatency {line : String} {t : Tree .item} {u : Tree .value} {v : Value}
    {x : Int128} (derived : t.text = line.toList) (within : t.Within State.maxDepth)
    (latency : t.LastLatency u) (h : Spells 126 (.value v) u.text) (found : latency? v = some x) :
    ofLine line = .sample x := by
  have within : t.Within (126 + 1) := within
  obtain ⟨earlier, w, later, spelled, last, valued⟩ := exists_members_of_lastLatency within latency
  obtain rfl := eq_of_spells (by decide) h valued
  rw [derived] at spelled
  exact (ofLine_eq_sample_iff spelled last).mpr found

theorem ofLine_of_numeral {line : String} {t : Tree .item} {n : Numeral} {x : Number} {m : Int128}
    (derived : t.text = line.toList) (within : t.Within State.maxDepth)
    (latency : t.LastLatency (.number n)) (denoted : n.number? = some x)
    (found : latency? (.number x) = some m) : ofLine line = .sample m :=
  ofLine_of_lastLatency derived within latency (.number 126 denoted) found

theorem isFilled_of_lastLatency {line : String} {t : Tree .item} {u : Tree .value}
    (derived : t.text = line.toList) (h : t.LastLatency u) : IsFilled line := by
  obtain ⟨earlier, key, later, split, -⟩ := h
  refine ⟨'\x7b', ?_, by decide⟩
  rw [← derived]
  cases t with
  | item before value after =>
    cases value with
    | object members => simp [Tree.text]
    | _ => simp [Tree.entries] at split

/-- Any derivation of a line that is not malformed keeps the limits. -/
theorem within_of_formed {line : String} {t : Tree .item} {u : Tree .value}
    (derived : t.text = line.toList) (latency : t.LastLatency u)
    (formed : ∀ detail, ofLine line ≠ .skipped (.malformed detail)) :
    t.Within State.maxDepth := by
  have filled := isFilled_of_lastLatency derived latency
  obtain ⟨v, read⟩ : ∃ v, Json.read line.toList = .ok v := by
    by_contra unread
    obtain ⟨detail, malformed⟩ := (ofLine_eq_malformed_iff filled).mpr unread
    exact formed detail malformed
  rw [← derived] at read
  exact within_of_read read

/-- The line is an object whose last latency is the numeral, and nothing but this numeral may break
the limits. -/
def WritesLatency (line : String) (n : Numeral) : Prop :=
  ∃ t : Tree .item, t.text = line.toList ∧ t.LastLatency (.number n) ∧ t.depth ≤ State.maxDepth ∧
    (∀ q ∈ t.quotations, Paired q) ∧ ∀ m ∈ t.numerals, m ≠ n → m.number?.isSome

/-- The line is an object whose last latency is the text between quotes. -/
def QuotesLatency (line : String) (text : String) : Prop :=
  ∃ (t : Tree .item) (q : Quotation), t.text = line.toList ∧ t.LastLatency (.quotation q) ∧
    t.Within State.maxDepth ∧ SpellsText text q.text

theorem ofLine_of_writesLatency {line : String} {n : Numeral} {x : Number} {m : Int128}
    (h : WritesLatency line n) (denoted : n.number? = some x)
    (found : latency? (.number x) = some m) : ofLine line = .sample m := by
  obtain ⟨t, derived, latency, shallow, paired, others⟩ := h
  have inRange : ∀ k ∈ t.numerals, k.number?.isSome := by
    intro k member
    by_cases same : k = n
    · rw [same, denoted]
      rfl
    · exact others k member same
  exact ofLine_of_numeral derived ⟨shallow, paired, inRange⟩ latency denoted found

theorem ofLine_of_quotesLatency {line text : String} {m : Int128} (h : QuotesLatency line text)
    (found : Int128.ofDecimal? (trim text.toList) = some m) : ofLine line = .sample m := by
  obtain ⟨t, q, derived, latency, within, spelled⟩ := h
  exact ofLine_of_lastLatency derived within latency (.text 126 spelled) found

theorem writesLatency_of_recordText {line : String} {n : Numeral}
    (h : line.toList = recordText n.text) : WritesLatency line n := by
  obtain ⟨t, key, derived, latency, depth, paired, quotations, numerals⟩ :=
    exists_record (.number n)
  refine ⟨t, derived.trans h.symm, latency, depth.trans_le (by decide : 0 + 1 ≤ 127), ?_, ?_⟩
  · rw [quotations]
    exact List.forall_mem_singleton.mpr paired
  · rw [numerals]
    intro m member other
    exact absurd (List.mem_singleton.mp member) other

theorem quotesLatency_of_recordText {line text : String} (plain : text.toList.all isPlain = true)
    (h : line.toList = recordText ('"' :: (text.toList ++ ['"']))) : QuotesLatency line text := by
  have spelled : SpellsText text ('"' :: (text.toList ++ ['"'])) :=
    ⟨text.toList, spellsCharacters_raw plain, rfl⟩
  obtain ⟨q, written, paired⟩ := exists_quotation_of_spellsText spelled
  obtain ⟨t, key, derived, latency, depth, paired', quotations, numerals⟩ :=
    exists_record (.quotation q)
  rw [← written] at spelled h
  refine ⟨t, q, derived.trans h.symm, latency, ⟨depth.trans_le (by decide : 0 + 1 ≤ 127), ?_, ?_⟩,
    spelled⟩
  · rw [quotations]
    exact List.forall_mem_cons.mpr ⟨paired', List.forall_mem_singleton.mpr paired⟩
  · rw [numerals]
    exact List.forall_mem_nil _

/-! ## Exact numerals -/

theorem denotesInteger_text {n : Numeral} (noPoint : n.fraction = []) (noPower : n.power = none) :
    DenotesInteger n.text (withSign n.negative n.digits) := by
  have digits : digitChar n.lead :: n.tail = (n.lead :: n.whole).map digitChar := by
    rw [Numeral.tail, Numeral.fractionText, Numeral.powerText, noPoint, noPower]
    simp
  have value : n.digits = withDigits 0 (n.lead :: n.whole) := by
    rw [Numeral.digits, noPoint, List.append_nil]
  rw [Numeral.text, digits, value]
  cases n.negative with
  | false => exact .plain (List.cons_ne_nil _ _)
  | true => exact .minus (List.cons_ne_nil _ _)

/-- In a line that is short enough there is no room for the digits after the point that would make
up for an exponent too large to be read. -/
theorem exponentIsRead_of_short {line : String} {n : Numeral} (written : WritesLatency line n)
    (small : n.IsExact) (short : line.utf8ByteSize < 2 ^ 31) : n.ExponentIsRead := by
  have bound := (abs_le.mp small.exponent_le).2
  refine Or.inl ?_
  rw [Numeral.netExponent] at bound
  by_cases point : n.fraction = []
  · rw [point, List.length_nil] at bound
    omega
  · cases power : n.power with
    | none =>
      rw [Numeral.exponent_of_none power]
      omega
    | some p =>
      obtain ⟨t, derived, latency, -⟩ := written
      have fraction := Numeral.length_fraction_le point power
      have fits : n.text.length + 19 ≤ t.text.length := latency.length_le
      have bytes := length_le_utf8ByteSize line
      rw [← derived] at bytes
      omega

theorem exists_sample_of_isExact {line : String} {n : Numeral} (written : WritesLatency line n)
    (small : n.IsExact) (read : n.ExponentIsRead) :
    ∃ x, ofLine line = .sample x ∧ x.toInt = towardZero n.toRat := by
  obtain ⟨y, x, denoted, found, value⟩ := Numeral.exists_sample_of_exact small read
  exact ⟨x, ofLine_of_writesLatency written denoted found, value⟩

theorem malformed_of_not_exponentIsRead {line : String} {n : Numeral}
    (written : WritesLatency line n) (small : n.IsExact) (unread : ¬n.ExponentIsRead) :
    ∃ detail, ofLine line = .skipped (.malformed detail) := by
  by_contra formed
  obtain ⟨t, derived, latency, -⟩ := written
  have within := within_of_formed derived latency fun detail bad => formed ⟨detail, bad⟩
  exact unread (Numeral.exponentIsRead_of_number? (within.inRange n latency.mem_numerals)
    (small.digits_le.trans_lt (by decide)))

/-- **Numerals are read exactly.** An integer numeral of 64 bits is its own sample, in quotes and
without. Digits of 53 bits at a power of ten of no more than 22, with a value of no more than 53
bits, have the sample that the value is cut off to, however the value is spelled, as long as the
written exponent is below `2 ^ 31` or the digits are zeros. In a line shorter than `2 ^ 31` bytes
that is so; elsewhere the line is malformed. -/
theorem ofLine_of_exact_numeral {line : String} {n : Numeral} (written : WritesLatency line n) :
    (n.fraction = [] → n.power = none → ∀ x : Int128, x.toInt = withSign n.negative n.digits →
      -2 ^ 63 ≤ x.toInt → x.toInt < 2 ^ 64 →
        ofLine line = .sample x ∧
          ∀ quoted, QuotesLatency quoted (String.ofList n.text) → ofLine quoted = .sample x) ∧
    (n.IsExact → n.ExponentIsRead →
      ∃ x : Int128, x.toInt = towardZero n.toRat ∧ ofLine line = .sample x ∧
        ∀ other m, WritesLatency other m → m.IsExact → m.ExponentIsRead → m.toRat = n.toRat →
          ofLine other = .sample x) ∧
    (n.IsExact → line.utf8ByteSize < 2 ^ 31 → n.ExponentIsRead) ∧
    (n.IsExact → ¬n.ExponentIsRead → ∃ detail, ofLine line = .skipped (.malformed detail)) := by
  refine ⟨?_, ?_, exponentIsRead_of_short written, malformed_of_not_exponentIsRead written⟩
  · intro noPoint noPower x value lower upper
    rw [value, withSign] at lower upper
    have fits : n.digits < 2 ^ 64 ∧ (n.negative = true → n.digits ≤ 2 ^ 63) := by
      cases sign : n.negative with
      | false =>
        rw [sign] at upper
        exact ⟨by simpa using upper, fun negative => absurd negative Bool.false_ne_true⟩
      | true =>
        rw [sign] at lower
        simp only [if_true] at lower
        exact ⟨by omega, fun _ => by omega⟩
    obtain ⟨y, m, denoted, found, same⟩ :=
      Numeral.exists_sample_of_integer noPoint noPower fits.1 fits.2
    obtain rfl : x = m := Int128.ext_toInt (value.trans same.symm)
    refine ⟨ofLine_of_writesLatency written denoted found, fun quoted spelled => ?_⟩
    refine ofLine_of_quotesLatency spelled (Int128.ofDecimal?_trim_eq_some_iff.mpr ?_)
    refine ⟨[], n.text, [], ?_, List.forall_mem_nil _, List.forall_mem_nil _, ?_⟩
    · rw [String.toList_ofList, List.append_nil, List.nil_append]
    · rw [value]
      exact denotesInteger_text noPoint noPower
  · intro small read
    obtain ⟨x, sampled, value⟩ := exists_sample_of_isExact written small read
    refine ⟨x, value, sampled, fun other m written' small' read' same => ?_⟩
    obtain ⟨y, sampled', value'⟩ := exists_sample_of_isExact written' small' read'
    rw [sampled', Int128.ext_toInt (value'.trans ((congrArg _ same).trans value.symm))]

/-- The least integer of 64 bits, in quotes and without, and one fraction spelled with an exponent
and without. -/
theorem ofLine_of_exact_spellings :
    let least : Numeral :=
      ⟨true, 9, [2, 2, 3, 3, 7, 2, 0, 3, 6, 8, 5, 4, 7, 7, 5, 8, 0, 8], by decide, [], none⟩
    let n : Numeral := ⟨true, 1, [0, 0, 9], by decide, [9], some ⟨false, some true, 2, []⟩⟩
    let m : Numeral := ⟨true, 1, [0], by decide, [0, 9, 9, 0], none⟩
    let leastLine := "\x7b\"AverageLatency\":-9223372036854775808\x7d"
    let quotedLine := "\x7b\"AverageLatency\":\"-9223372036854775808\"\x7d"
    let line := "\x7b\"AverageLatency\":-1009.9e-2\x7d"
    let other := "\x7b\"AverageLatency\":-10.0990\x7d"
    (WritesLatency leastLine least ∧ ofLine leastLine = .sample (Int128.clamp (-2 ^ 63)) ∧
        ofLine quotedLine = .sample (Int128.clamp (-2 ^ 63))) ∧
      WritesLatency line n ∧ n.IsExact ∧ WritesLatency other m ∧ m.IsExact ∧
        ∃ x : Int128, x.toInt = -10 ∧ ofLine line = .sample x ∧ ofLine other = .sample x := by
  intro least n m leastLine quotedLine line other
  have wide : WritesLatency leastLine least := writesLatency_of_recordText (by decide +kernel)
  have quoted : QuotesLatency quotedLine (String.ofList least.text) :=
    quotesLatency_of_recordText (by decide +kernel) (by decide +kernel)
  have integer := (ofLine_of_exact_numeral wide).1 rfl rfl (Int128.clamp (-2 ^ 63)) (by decide)
    (by decide) (by decide)
  have written : WritesLatency line n := writesLatency_of_recordText (by decide +kernel)
  have written' : WritesLatency other m := writesLatency_of_recordText (by decide +kernel)
  have value : n.absRat = 10099 / 1000 := by
    have digits : n.digits = 10099 := by decide
    have exponent : n.netExponent = -3 := by decide
    rw [Numeral.absRat, digits, exponent]
    norm_num
  have value' : m.absRat = 10099 / 1000 := by
    have digits : m.digits = 100990 := by decide
    have exponent : m.netExponent = -4 := by decide
    rw [Numeral.absRat, digits, exponent]
    norm_num
  have small : n.IsExact := ⟨by decide, by decide, by rw [value]; norm_num⟩
  have small' : m.IsExact := ⟨by decide, by decide, by rw [value']; norm_num⟩
  have same : m.toRat = n.toRat := by rw [Numeral.toRat, Numeral.toRat, value, value']
  have cut : towardZero n.toRat = -10 := by
    rw [Numeral.toRat, value, if_pos rfl, towardZero_neg, towardZero_of_nonneg (by norm_num)]
    norm_num
  have read : n.ExponentIsRead := Or.inl (by decide)
  have read' : m.ExponentIsRead := Or.inl (by decide)
  obtain ⟨x, reached, sampled, others⟩ := (ofLine_of_exact_numeral written).2.1 small read
  have sampled' := others other m written' small' read' same
  exact ⟨⟨wide, integer.1, integer.2 quotedLine quoted⟩, written, small, written', small', x,
    reached.trans cut, sampled, sampled'⟩

/-! ## Numerals that are not read -/

theorem withDigits_zeros (zeros : Nat) : withDigits 0 (List.replicate zeros 0) = 0 := by
  induction zeros with
  | zero => rfl
  | succ zeros ih =>
    rw [List.replicate_succ, withDigits_cons]
    exact ih

/-- The numeral is a one after some zeros, all of them after the point, with the exponent that makes
up for them. -/
structure IsOneAfterZeros (n : Numeral) (zeros : Nat) : Prop where
  positive : n.negative = false
  lead : n.lead = 0
  fraction : n.fraction = List.replicate zeros 0 ++ [1]
  exponent : n.exponent = zeros + 1

namespace IsOneAfterZeros

variable {n : Numeral} {zeros : Nat}

theorem digits_eq_one (h : IsOneAfterZeros n zeros) : n.digits = 1 := by
  rw [Numeral.digits_eq, n.whole_eq_nil h.lead, h.lead, h.fraction]
  show withDigits 0 (List.replicate zeros 0 ++ [1]) = 1
  rw [withDigits_append, withDigits_zeros]
  rfl

theorem netExponent_eq_zero (h : IsOneAfterZeros n zeros) : n.netExponent = 0 := by
  rw [Numeral.netExponent, h.exponent, h.fraction]
  simp

theorem absRat_eq_one (h : IsOneAfterZeros n zeros) : n.absRat = 1 := by
  rw [Numeral.absRat, h.digits_eq_one, h.netExponent_eq_zero]
  norm_num

theorem toRat_eq_one (h : IsOneAfterZeros n zeros) : n.toRat = 1 := by
  rw [Numeral.toRat, h.positive, if_neg Bool.false_ne_true, h.absRat_eq_one]

theorem isExact (h : IsOneAfterZeros n zeros) : n.IsExact where
  digits_le := by
    rw [h.digits_eq_one]
    norm_num
  exponent_le := by
    rw [h.netExponent_eq_zero]
    norm_num
  value_le := by
    rw [h.absRat_eq_one]
    norm_num

/-- So many zeros that the exponent is not read. -/
theorem malformed (h : IsOneAfterZeros n zeros) (many : 2 ^ 31 - 1 ≤ zeros) {line : String}
    (written : WritesLatency line n) : ∃ detail, ofLine line = .skipped (.malformed detail) := by
  apply malformed_of_not_exponentIsRead written h.isExact
  rintro (small | zero)
  · rw [h.exponent] at small
    omega
  · rw [h.digits_eq_one] at zero
    cases zero

end IsOneAfterZeros

/-- A ten is malformed beside a number out of range, and so is a one with so many zeros after the
point that the exponent that makes up for them is not read. -/
theorem malformed_of_large_exponents :
    let ten : Numeral := ⟨false, 1, [0], by decide, [], none⟩
    let one : Numeral := ⟨false, 0, [], fun _ => rfl, List.replicate (2 ^ 31 - 1) 0 ++ [1],
      some ⟨false, none, 2, [1, 4, 7, 4, 8, 3, 6, 4, 8]⟩⟩
    let line := "\x7b\"AverageLatency\":10,\"x\":1e400\x7d"
    let longLine := String.ofList (recordText one.text)
    (ten.IsExact ∧ (∃ t : Tree .item, t.text = line.toList ∧ t.LastLatency (.number ten)) ∧
        ∃ detail, ofLine line = .skipped (.malformed detail)) ∧
      one.IsExact ∧ one.toRat = 1 ∧ WritesLatency longLine one ∧
        ∃ detail, ofLine longLine = .skipped (.malformed detail) := by
  intro ten one line longLine
  have value : ten.absRat = 10 := by
    have digits : ten.digits = 10 := by decide
    have exponent : ten.netExponent = 0 := by decide
    rw [Numeral.absRat, digits, exponent]
    norm_num
  have small : ten.IsExact := ⟨by decide, by decide, by rw [value]; norm_num⟩
  obtain ⟨t, derived, latency⟩ := exists_record_beside (.number ten)
    (.number ⟨false, 1, [], by decide, [], some ⟨false, none, 4, [0, 0]⟩⟩)
  have derived : t.text = line.toList := derived.trans (by decide +kernel)
  have malformed : ∃ detail, ofLine line = .skipped (.malformed detail) :=
    ⟨"number out of range at line 1 column 30", by decide +kernel⟩
  -- The zeros are never written out here: what is said of them holds for any number of them.
  have zeros : IsOneAfterZeros one (2 ^ 31 - 1) := ⟨rfl, rfl, rfl, by decide⟩
  have written : WritesLatency longLine one := writesLatency_of_recordText String.toList_ofList
  exact ⟨⟨small, ⟨t, derived, latency⟩, malformed⟩, zeros.isExact, zeros.toRat_eq_one, written,
    zeros.malformed le_rfl written⟩

/-! ## Any numerals -/

/-- **The sample of a numeral is near to what is written**, for every numeral in a record. -/
theorem ofLine_near_numeral {line : String} {t : Tree .item} {n : Numeral}
    (derived : t.text = line.toList) (latency : t.LastLatency (.number n))
    (short : line.utf8ByteSize < 2 ^ 31)
    (formed : ∀ detail, ofLine line ≠ .skipped (.malformed detail)) :
    ∃ m : Int128, ofLine line = .sample m ∧
      |(m.toInt : ℚ) - clampRat n.toRat| < 1 + |n.toRat| / 2 ^ 50 := by
  have within := within_of_formed derived latency formed
  obtain ⟨x, denoted⟩ := Option.isSome_iff_exists.mp (within.inRange n latency.mem_numerals)
  have digits : n.whole.length + 1 < 2 ^ 31 := by
    have fits : n.text.length + 19 ≤ t.text.length := latency.length_le
    have bytes := length_le_utf8ByteSize line
    have whole := n.length_whole_lt
    rw [← derived] at bytes
    omega
  obtain ⟨i, found, near⟩ := Numeral.exists_near_sample denoted digits
  refine ⟨_, ofLine_of_numeral derived within latency denoted found, ?_⟩
  calc |((Int128.clamp (withSign n.negative i)).toInt : ℚ) - clampRat n.toRat|
      = |clampRat (withSign n.negative i : ℤ) - clampRat n.toRat| := by rw [cast_toInt_clamp]
    _ ≤ |((withSign n.negative i : ℤ) : ℚ) - n.toRat| := abs_clampRat_sub_le _ _
    _ = |(i : ℚ) - n.absRat| := abs_withSign_sub n.negative i n.absRat
    _ < 1 + n.absRat / 2 ^ 50 := near
    _ = 1 + |n.toRat| / 2 ^ 50 := by rw [n.abs_toRat]

/-- A numeral of more digits than are taken, with a value below the least integer of 128 bits. -/
theorem ofLine_near_wide_numeral :
    let n : Numeral :=
      ⟨true, 1, [7, 0, 1, 4, 1, 1, 8, 3, 4, 6, 0, 4, 6, 9, 2, 3, 1, 7, 3, 1, 6, 8, 7, 3, 0, 3, 7, 1,
        5, 8, 8, 4, 1, 0, 5, 7, 2, 8, 0], by decide, [5], some ⟨false, some true, 1, []⟩⟩
    let line := "\x7b\"AverageLatency\":-1701411834604692317316873037158841057280.5e-1\x7d"
    ∃ t : Tree .item, t.text = line.toList ∧ t.LastLatency (.number n) ∧
      line.utf8ByteSize < 2 ^ 31 ∧ (∀ detail, ofLine line ≠ .skipped (.malformed detail)) ∧
      ∃ m : Int128, ofLine line = .sample m ∧
        |(m.toInt : ℚ) - clampRat n.toRat| < 1 + |n.toRat| / 2 ^ 50 := by
  intro n line
  obtain ⟨t, key, derived, latency, -⟩ := exists_record (.number n)
  have derived : t.text = line.toList := derived.trans (by decide +kernel)
  have short : line.utf8ByteSize < 2 ^ 31 := by decide +kernel
  have sampled : ofLine line = .sample (Int128.clamp (-2 ^ 127)) := by decide +kernel
  have formed : ∀ detail, ofLine line ≠ .skipped (.malformed detail) := by
    intro detail
    rw [sampled]
    nofun
  exact ⟨t, derived, latency, short, formed, ofLine_near_numeral derived latency short formed⟩

end Outcome

end LatencyLog
