import LatencyLog.Proofs.Record.Members

/-! # Samples of quoted latencies

* `HoldsInteger`: the texts that hold an integer between blanks.
* `Outcome.ofLine_of_text`: a quoted latency has a sample just if it holds an integer of 128 bits.
-/

namespace LatencyLog

set_option autoImplicit false

open Text

/-- A sign that may be left out and one or more digits, with nothing but blanks around them. -/
def HoldsInteger (text : String) (i : Int) : Prop :=
  ∃ before body after, text.toList = before ++ (body ++ after) ∧ AllBlank before ∧
    AllBlank after ∧ DenotesInteger body i

theorem latency?_text_eq_some_iff {text : String} {x : Int128} :
    latency? (.text text) = some x ↔ HoldsInteger text x.toInt :=
  Int128.ofDecimal?_trim_eq_some_iff

/-- A printed integer, with blanks around it, holds that integer. -/
theorem holdsInteger_of_printed {text : String} {i : Int} {before after : List Char}
    (split : text.toList = before ++ ((toString i).toList ++ after)) (hbefore : AllBlank before)
    (hafter : AllBlank after) : HoldsInteger text i :=
  ⟨before, (toString i).toList, after, split, hbefore, hafter, denotesInteger_toString i⟩

namespace Outcome

open Json

/-- **A quoted latency has a sample just if it holds an integer of 128 bits**, which is the sample;
all printed integers of 128 bits are among these texts. -/
theorem ofLine_of_text {earlier later : List (String × Value)} {text line : String}
    (spelled : Spells State.maxDepth
      (.item (.object (earlier ++ (latencyKey, .text text) :: later))) line.toList)
    (last : ∀ m ∈ later, m.1 ≠ latencyKey) :
    (∀ x : Int128, ofLine line = .sample x ↔ HoldsInteger text x.toInt) ∧
      ((∀ i, -2 ^ 127 ≤ i → i ≤ 2 ^ 127 - 1 → ¬HoldsInteger text i) →
        ofLine line = .skipped .nonNumeric) ∧
      ∀ (x : Int128) before after, AllBlank before → AllBlank after →
        text.toList = before ++ ((toString x.toInt).toList ++ after) → ofLine line = .sample x := by
  have sample : ∀ x : Int128, ofLine line = .sample x ↔ HoldsInteger text x.toInt := by
    intro x
    rw [ofLine_eq_sample_iff spelled last, latency?_text_eq_some_iff]
  refine ⟨sample, fun none => ?_, fun x before after hbefore hafter split => ?_⟩
  · rw [ofLine_eq_nonNumeric_iff spelled last, Option.eq_none_iff_forall_ne_some]
    intro x found
    exact none x.toInt x.minValue_le x.le_maxValue (latency?_text_eq_some_iff.mp found)
  · exact (sample x).mpr (holdsInteger_of_printed split hbefore hafter)

/-- The least integer of 128 bits between a tab, which is escaped, and an ideographic space. -/
theorem ofLine_of_padded_least :
    let text := "\t-170141183460469231731687303715884105728\u3000"
    let line :=
      "\x7b\"AverageLatency\":\"\\t-170141183460469231731687303715884105728\u3000\"\x7d"
    Spells State.maxDepth (.item (.object ([] ++ (latencyKey, .text text) :: []))) line.toList ∧
      ofLine line = .sample (Int128.clamp (-2 ^ 127)) := by
  intro text line
  have noGap : State.IsGap [] := List.forall_mem_nil _
  have key : SpellsText latencyKey ('"' :: (latencyKey.toList ++ ['"'])) :=
    ⟨_, spellsCharacters_raw (by decide +kernel), rfl⟩
  have quoted : SpellsText text ('"' :: ('\\' :: 't' :: text.toList.tail ++ ['"'])) := by
    refine ⟨_, ?_, rfl⟩
    have head : text.toList = '\t' :: text.toList.tail := by decide +kernel
    nth_rewrite 1 [head]
    exact .cons (.short (by decide)) (spellsCharacters_raw (by decide +kernel))
  have value : Spells 126 (.value (.text text)) _ := .text 126 quoted
  have object : Spells State.maxDepth
      (.item (.object ([] ++ (latencyKey, .text text) :: []))) _ :=
    .item noGap (.object (.lastMember (.member noGap key noGap (.item noGap value noGap)))) noGap
  have spelled : Spells State.maxDepth
      (.item (.object ([] ++ (latencyKey, .text text) :: []))) line.toList := by
    refine Eq.mp (congrArg _ ?_) object
    decide +kernel
  have before : AllBlank ['\t'] := List.forall_mem_singleton.mpr (by decide +kernel)
  have after : AllBlank ['\u3000'] := List.forall_mem_singleton.mpr (by decide +kernel)
  refine ⟨spelled, (ofLine_of_text spelled (List.forall_mem_nil _)).2.2 _ _ _ before after ?_⟩
  decide +kernel

end Outcome

end LatencyLog
