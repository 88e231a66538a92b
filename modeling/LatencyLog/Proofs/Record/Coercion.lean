import LatencyLog.Proofs.Binary64.Value
import LatencyLog.Proofs.Json.Spelling
import LatencyLog.Record

/-! # Coercion of latency values

* `Coerces`: the values that stand for an integer, and the integer that each stands for.
* `latency?_eq_some_iff`: `latency?` finds just this integer, for values without integers wider than
  those that JSON texts give.
-/

namespace LatencyLog

set_option autoImplicit false

open Text

/-- The integer that a latency value stands for. -/
inductive Coerces : Json.Value → Int → Prop where
  | integer (i : Int) : Coerces (.number (.integer i)) i
  | real (a : Binary64) :
      Coerces (.number (.real a)) (max (-2 ^ 127) (min (towardZero a.toRat) (2 ^ 127 - 1)))
  | bool (b : Bool) : Coerces (.bool b) (if b then 1 else 0)
  /-- A text that holds, between blanks, an integer of 128 bits. -/
  | text {t : String} {i : Int} {before body after : List Char}
      (split : t.toList = before ++ (body ++ after)) (hbefore : AllBlank before)
      (hafter : AllBlank after) (denoted : DenotesInteger body i) (lower : -2 ^ 127 ≤ i)
      (upper : i ≤ 2 ^ 127 - 1) : Coerces (.text t) i

/-- No integer wider than 64 bits stands as the value itself. -/
def IntegerBounded (v : Json.Value) : Prop :=
  ∀ i, v = .number (.integer i) → -2 ^ 63 ≤ i ∧ i < 2 ^ 64

theorem coerces_of_latency? {v : Json.Value} (bounded : IntegerBounded v) {x : Int128}
    (h : latency? v = some x) : Coerces v x.toInt := by
  cases v with
  | null => cases h
  | bool b =>
    cases h
    cases b
    · exact .bool false
    · exact .bool true
  | number n =>
    cases n with
    | integer i =>
      cases h
      have range := bounded i rfl
      rw [Int128.toInt_clamp_of_mem (by omega) (by omega)]
      exact .integer i
    | real a =>
      cases h
      rw [Int128.toInt_clamp, a.truncate_eq_towardZero]
      exact .real a
  | text t =>
    obtain ⟨before, body, after, split, hbefore, hafter, denoted⟩ :=
      Int128.ofDecimal?_trim_eq_some_iff.mp h
    exact .text split hbefore hafter denoted x.minValue_le x.le_maxValue
  | list items => cases h
  | object members => cases h

theorem exists_latency?_of_coerces {v : Json.Value} (bounded : IntegerBounded v) {i : Int}
    (h : Coerces v i) : ∃ x : Int128, x.toInt = i ∧ latency? v = some x := by
  cases h with
  | integer =>
    have range := bounded i rfl
    exact ⟨Int128.clamp i, Int128.toInt_clamp_of_mem (by omega) (by omega), rfl⟩
  | real a =>
    refine ⟨Int128.clamp a.truncate, ?_, rfl⟩
    rw [Int128.toInt_clamp, a.truncate_eq_towardZero]
  | bool b =>
    refine ⟨Int128.clamp (if b then 1 else 0), ?_, rfl⟩
    cases b <;> rfl
  | text split hbefore hafter denoted lower upper =>
    exact ⟨⟨i, lower, upper⟩, rfl, Int128.ofDecimal?_trim_eq_some_iff.mpr
      ⟨_, _, _, split, hbefore, hafter, denoted⟩⟩

theorem latency?_eq_none_of_not_coerces {v : Json.Value} (bounded : IntegerBounded v)
    (h : ∀ i, ¬Coerces v i) : latency? v = none := by
  cases found : latency? v with
  | none => rfl
  | some x => exact absurd (coerces_of_latency? bounded found) (h x.toInt)

/-! ## Values in a text -/

/-- The values that a phrase is made of. -/
def Json.Phrase.values : Json.Phrase → List Json.Value
  | .value v => [v]
  | .item v => [v]
  | .items vs => vs
  | .member _ v => [v]
  | .members ms => ms.map Prod.snd

theorem integerBounded_of_ne_integer {v : Json.Value} (h : ∀ i, v ≠ .number (.integer i)) :
    ∀ w ∈ [v], IntegerBounded w := by
  intro w member i same
  rw [List.mem_singleton.mp member] at same
  exact absurd same (h i)

theorem integerBounded_of_spells {room : Nat} {p : Json.Phrase} {cs : List Char}
    (h : Json.Spells room p cs) : ∀ v ∈ p.values, IntegerBounded v := by
  induction h with
  | null => exact integerBounded_of_ne_integer fun _ => nofun
  | true => exact integerBounded_of_ne_integer fun _ => nofun
  | false => exact integerBounded_of_ne_integer fun _ => nofun
  | number room denoted =>
    intro v member i same
    rw [List.mem_singleton.mp member] at same
    cases same
    exact Json.Numeral.integer_range_of_number? denoted
  | text => exact integerBounded_of_ne_integer fun _ => nofun
  | noItems => exact integerBounded_of_ne_integer fun _ => nofun
  | list => exact integerBounded_of_ne_integer fun _ => nofun
  | noMembers => exact integerBounded_of_ne_integer fun _ => nofun
  | object => exact integerBounded_of_ne_integer fun _ => nofun
  | item _ _ _ ih => exact ih
  | lastItem _ ih => exact ih
  | moreItems _ _ first later =>
    exact List.forall_mem_cons.mpr ⟨first _ List.mem_cons_self, later⟩
  | member _ _ _ _ ih => exact ih
  | lastMember _ ih => exact ih
  | moreMembers _ _ first later =>
    exact List.forall_mem_cons.mpr ⟨first _ List.mem_cons_self, later⟩

end LatencyLog
