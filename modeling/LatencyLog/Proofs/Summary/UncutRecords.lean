import LatencyLog.Proofs.Record.Truncation
import LatencyLog.Proofs.Summary.Lines
import LatencyLog.Proofs.Utf8.LineEnds

/-! # Records that no line end cuts

A carriage return is a gap in a JSON text and a line end in a stream of lines. Records with a line
feed after each of them are read back one by one just if no carriage return stands in them, but
for a last character.

* `Outcome.ofLine_of_return`: a record is the same without a carriage return that it ends with.
* `length_lt_of_inner_return`: a carriage return within a record leaves more lines than records.
* `uncut_iff_no_inner_return`: the answers, the samples and the skips of such a stream.
-/

namespace LatencyLog

set_option autoImplicit false

/-! ## Carriage returns after records -/

namespace Json

theorem spells_object_of_concat {room : Nat} {members : List (String × Value)} {cs : List Char}
    {c : Char} (other : c ≠ '\x7d') (h : Spells room (.item (.object members)) (cs ++ [c])) :
    Spells room (.item (.object members)) cs := by
  generalize whole : cs ++ [c] = text at h
  cases h with
  | @item _ _ before inner after hbefore value hafter =>
    -- An object ends with its brace, so another last character is part of the gap after it.
    cases after using List.reverseRecOn with
    | nil =>
      obtain ⟨front, rfl⟩ := Outcome.exists_closing_brace value
      have ends : (cs ++ [c]).getLast? = some '\x7d' := by
        rw [whole]
        simp
      rw [List.getLast?_concat, Option.some.injEq] at ends
      exact absurd ends other
    | append_singleton gap last =>
      rw [← List.append_assoc] at whole
      obtain ⟨rfl, -⟩ := List.append_inj' whole rfl
      have shorter : State.IsGap gap := fun d inside => hafter d (List.mem_append_left _ inside)
      exact .item hbefore value shorter

end Json

namespace Outcome

open Json

theorem exists_members_of_sample {line : String} {x : Int128} (h : ofLine line = .sample x) :
    ∃ members, Spells State.maxDepth (.item (.object members)) line.toList ∧
      ofMembers members = .sample x := by
  obtain ⟨members, read⟩ := exists_object_of_isRecord (isRecord_of_sample h)
  have spelled := read_eq_ok_iff_spells.mp read
  exact ⟨members, spelled, (ofLine_eq_ofMembers spelled).symm.trans h⟩

theorem ofLine_of_return {text : List Char} {x : Int128}
    (h : ofLine (String.ofList (text ++ ['\r'])) = .sample x) :
    ofLine (String.ofList text) = .sample x := by
  obtain ⟨members, spelled, amount⟩ := exists_members_of_sample h
  rw [String.toList_ofList] at spelled
  have bare : Spells State.maxDepth (.item (.object members)) (String.ofList text).toList := by
    rw [String.toList_ofList]
    exact spells_object_of_concat (by decide) spelled
  rw [ofLine_eq_ofMembers bare, amount]

end Outcome

/-! ## Lines of records -/

/-- A text without the carriage return that it ends with. -/
def withoutReturn (text : List Char) : List Char :=
  if text.getLast? = some '\r' then text.dropLast else text

theorem withoutReturn_concat (front : List Char) : withoutReturn (front ++ ['\r']) = front := by
  rw [withoutReturn, if_pos List.getLast?_concat, List.dropLast_concat]

theorem withoutReturn_of_getLast?_ne {text : List Char} (h : text.getLast? ≠ some '\r') :
    withoutReturn text = text := if_neg h

theorem ofLine_withoutReturn {text : List Char} {x : Int128}
    (h : Outcome.ofLine (String.ofList text) = .sample x) :
    Outcome.ofLine (String.ofList (withoutReturn text)) = .sample x := by
  by_cases last : text.getLast? = some '\r'
  · obtain ⟨front, rfl⟩ := List.getLast?_eq_some_iff.mp last
    rw [withoutReturn_concat]
    exact Outcome.ofLine_of_return h
  · rw [withoutReturn_of_getLast?_ne last]
    exact h

theorem unbroken_withoutReturn {text : List Char} (noFeed : '\n' ∉ text)
    (noReturn : '\r' ∉ text.dropLast) : Unbroken (withoutReturn text) := by
  by_cases last : text.getLast? = some '\r'
  · obtain ⟨front, rfl⟩ := List.getLast?_eq_some_iff.mp last
    rw [List.dropLast_concat] at noReturn
    rw [withoutReturn_concat]
    exact ⟨fun inside => noFeed (List.mem_append_left _ inside), noReturn⟩
  · rw [withoutReturn_of_getLast?_ne last]
    refine ⟨noFeed, fun inside => ?_⟩
    have nonempty : text ≠ [] := List.ne_nil_of_mem inside
    rw [← List.dropLast_concat_getLast nonempty] at inside
    rcases List.mem_append.mp inside with front | final
    · exact noReturn front
    · rw [List.getLast?_eq_some_getLast nonempty, ← List.mem_singleton.mp final] at last
      exact last rfl

theorem universalLines_record {text : List Char} (noFeed : '\n' ∉ text)
    (noReturn : '\r' ∉ text.dropLast) :
    universalLines (Utf8.encode text ++ [lineFeed]) = [Utf8.encode (withoutReturn text)] := by
  have unbroken := unbroken_withoutReturn noFeed noReturn
  by_cases last : text.getLast? = some '\r'
  · obtain ⟨front, rfl⟩ := List.getLast?_eq_some_iff.mp last
    rw [withoutReturn_concat] at unbroken ⊢
    rw [Utf8.encode_append, Utf8.encode_return]
    exact universalLines_pair unbroken.freeOfEnds_encode
  · rw [withoutReturn_of_getLast?_ne last] at unbroken ⊢
    exact universalLines_feed unbroken.freeOfEnds_encode

variable {texts : List (List Char)}

theorem universalLines_lineBytes_eq (texts : List (List Char)) :
    universalLines (lineBytes texts) =
      texts.flatMap fun text => universalLines (Utf8.encode text ++ [lineFeed]) := by
  rw [lineBytes, universalLines_terminated, List.flatMap_map]

theorem universalLines_lineBytes_of_uncut (noFeed : ∀ text ∈ texts, '\n' ∉ text)
    (noReturn : ∀ text ∈ texts, '\r' ∉ text.dropLast) :
    universalLines (lineBytes texts) = (texts.map withoutReturn).map Utf8.encode := by
  rw [universalLines_lineBytes_eq]
  induction texts with
  | nil => rfl
  | cons text texts ih =>
    obtain ⟨feed, feeds⟩ := List.forall_mem_cons.mp noFeed
    obtain ⟨ret, rets⟩ := List.forall_mem_cons.mp noReturn
    rw [List.flatMap_cons, universalLines_record feed ret, ih feeds rets]
    rfl

theorem length_lt_of_inner_return (noFeed : ∀ text ∈ texts, '\n' ∉ text) {text : List Char}
    (member : text ∈ texts) (inner : '\r' ∈ text.dropLast) :
    texts.length < (universalLines (lineBytes texts)).length := by
  have one : ∀ text ∈ texts, 1 ≤ (universalLines (Utf8.encode text ++ [lineFeed])).length := by
    intro text _
    exact List.length_pos_of_ne_nil (universalLines_ne_nil (by simp))
  have two : 1 < (universalLines (Utf8.encode text ++ [lineFeed])).length := by
    apply two_le_length_universalLines
    · exact (Utf8.lineFeed_mem_encode_iff _).not.mpr (noFeed text member)
    · exact Utf8.carriageReturn_mem_dropLast_encode inner
  have more := List.sum_lt_sum _ _ one ⟨text, member, two⟩
  rw [universalLines_lineBytes_eq, List.length_flatMap]
  simpa using more

/-! ## Streams of records -/

open LineStream

theorem outcomes_withoutReturn
    (samples : ∀ text ∈ texts, ∃ x, Outcome.ofLine (String.ofList text) = .sample x) :
    outcomes (texts.map withoutReturn) = outcomes texts := by
  unfold outcomes
  rw [List.map_map]
  apply List.map_congr_left
  intro text member
  obtain ⟨x, sample⟩ := samples text member
  rw [Function.comp_apply, ofLine_withoutReturn sample, sample]

theorem countP_isSample_of_samples {os : List Outcome} (h : ∀ o ∈ os, ∃ x, o = .sample x) :
    os.countP Outcome.isSample = os.length := by
  rw [List.countP_eq_length]
  intro o member
  obtain ⟨x, rfl⟩ := h o member
  rfl

theorem ofOutcomes_of_samples {os : List Outcome} (h : ∀ o ∈ os, ∃ x, o = .sample x) :
    Skips.ofOutcomes os = Skips.empty := by
  induction os with
  | nil => rfl
  | cons o os ih =>
    obtain ⟨⟨x, rfl⟩, rest⟩ := List.forall_mem_cons.mp h
    rw [Skips.ofOutcomes_sample]
    exact ih rest

/-- **Records are read back one by one just if no carriage return stands within one of them.** -/
theorem uncut_iff_no_inner_return {source : Source} (h : source.FaultFree)
    (delivered : source.bytes = lineBytes texts) (noFeed : ∀ text ∈ texts, '\n' ∉ text)
    (samples : ∀ text ∈ texts, ∃ x, Outcome.ofLine (String.ofList text) = .sample x) :
    ((∀ k text, texts[k]? = some text →
        (ofSource source).answer k =
          some (.ok ⟨k + 1, Outcome.ofLine (String.ofList text)⟩)) ∧
      (∀ k, texts.length ≤ k → (ofSource source).answer k = none) ∧
      ∃ summary, (Pass.ofSource source).result = .ok summary ∧
        summary.samples = texts.length ∧ summary.skips = Skips.empty) ↔
    ∀ text ∈ texts, '\r' ∉ text.dropLast := by
  constructor
  · rintro ⟨-, ended, -⟩ text member inner
    have few := length_le_of_answer_eq_none h (ended texts.length (Nat.le_refl _))
    have many := length_lt_of_inner_return noFeed member inner
    rw [← delivered] at many
    omega
  · intro noReturn
    have lines := universalLines_lineBytes_of_uncut noFeed noReturn
    have amounts := outcomes_withoutReturn samples
    rw [← delivered] at lines
    refine ⟨?_, ?_, _, result_of_faultFree h lines, ?_⟩
    · intro k text hk
      have found : (universalLines source.bytes)[k]? =
          some (Utf8.encode (withoutReturn text)) := by
        rw [lines, List.map_map, List.getElem?_map, hk]
        rfl
      obtain ⟨x, sample⟩ := samples text (List.mem_of_getElem? hk)
      rw [((calls_of_faultFree h).1 k _ found).1, lineAnswer_encode, ofLine_withoutReturn sample,
        sample]
    · intro k past
      apply answer_of_length_le h
      rw [lines, List.length_map, List.length_map]
      exact past
    · have sampled : ∀ o ∈ outcomes texts, ∃ x, o = .sample x := List.forall_mem_map.mpr samples
      rw [amounts, Summary.ofOutcomes, countP_isSample_of_samples sampled,
        ofOutcomes_of_samples sampled, outcomes, List.length_map]
      exact ⟨rfl, rfl⟩

/-- A record with a carriage return after its opening brace is a sample by itself and no line of an
input. -/
theorem uncut_fails_within_braces :
    let record := "\x7b\r\"AverageLatency\": 1\x7d".toList
    let source : Source := [.buffer (lineBytes [record])]
    source.FaultFree ∧ '\n' ∉ record ∧
      Outcome.ofLine (String.ofList record) = .sample (Int128.clamp 1) ∧
      ¬((∀ k text, [record][k]? = some text →
          (ofSource source).answer k =
            some (.ok ⟨k + 1, Outcome.ofLine (String.ofList text)⟩)) ∧
        (∀ k, [record].length ≤ k → (ofSource source).answer k = none) ∧
        ∃ summary, (Pass.ofSource source).result = .ok summary ∧
          summary.samples = [record].length ∧ summary.skips = Skips.empty) := by
  intro record source
  have free : source.FaultFree := by decide +kernel
  have noFeed : '\n' ∉ record := by decide +kernel
  have sample : Outcome.ofLine (String.ofList record) = .sample (Int128.clamp 1) := by
    decide +kernel
  have inner : '\r' ∈ record.dropLast := by decide +kernel
  refine ⟨free, noFeed, sample, fun uncut => ?_⟩
  have noReturn := (uncut_iff_no_inner_return free (List.append_nil _)
    (List.forall_mem_singleton.mpr noFeed) (List.forall_mem_singleton.mpr ⟨_, sample⟩)).mp uncut
  exact noReturn record (List.mem_singleton_self _) inner

/-- The first line of that record is its opening brace alone. -/
theorem answer_of_cut_record :
    let record := "\x7b\r\"AverageLatency\": 1\x7d".toList
    let source : Source := [.buffer (lineBytes [record])]
    source.FaultFree ∧ '\n' ∉ record ∧
      Outcome.ofLine (String.ofList record) = .sample (Int128.clamp 1) ∧
      (ofSource source).answer 0 ≠
        some (.ok ⟨1, Outcome.ofLine (String.ofList record)⟩) := by
  decide +kernel

end LatencyLog
