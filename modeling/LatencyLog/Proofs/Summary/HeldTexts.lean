import LatencyLog.Proofs.Summary.FirstFailure

/-! # Sources that are read to their end

A source is read to the end of the input or to its first failure.

* `Source.HoldsTexts`: what there is to read of a source are the lines of some texts.
* `holdsTexts_iff`: for a source without faults these are the lines of its bytes.
* `result_of_holdsTexts`: the summary of such a source.
* `holdsTexts_or_failsAfter`: every source holds texts or fails after some.
-/

namespace LatencyLog

set_option autoImplicit false

open LineStream

/-- What there is to read of a source, up to the end of the input, are the lines of `texts`. The end
comes where a reading finds no line begun, or where nothing is left to read. -/
inductive Source.HoldsTexts (source : Source) (texts : List (List Char)) : Prop where
  | exhausted {before last : Source} {ret ret' : Bool} (begins : before ++ last <+: source.steps)
      (lines : ReadsLines false before (texts.map Utf8.encode) ret)
      (final : Reads ret [] last .exhausted ret') : HoldsTexts source texts
  | drained {ret : Bool} (lines : ReadsLines false source.steps (texts.map Utf8.encode) ret) :
      HoldsTexts source texts

theorem gather_of_left_nil {rest : Source} (left : rest.Left []) (ret : Bool) :
    gather ret [] rest = ⟨.exhausted, [], ret⟩ := by
  rcases left with none | ⟨rfl, -⟩
  · exact absurd none (by simp [Source.steps])
  · rfl

namespace Source.HoldsTexts

variable {source : Source} {texts : List (List Char)}

/-- The steps of the texts, and the end of the input after them. -/
theorem exists_readsLines (h : source.HoldsTexts texts) :
    ∃ (before : Source) (ret : Bool), before <+: source.steps ∧
      ReadsLines false before (texts.map Utf8.encode) ret ∧
      ((ofSource source).after texts.length).reading = .exhausted := by
  cases h with
  | @exhausted before last ret ret' begins lines final =>
    obtain ⟨later, split⟩ := begins
    rw [List.append_assoc] at split
    obtain ⟨-, rest, left, reached⟩ :=
      readings_of_readsLines (s := ofSource source) lines (Or.inl split.symm)
    obtain ⟨_, gathered, -⟩ := gather_of_reads final (steps_of_left left final.ne_nil)
    rw [List.length_map] at reached
    refine ⟨before, ret, ⟨_, split⟩, lines, ?_⟩
    rw [reached, reading, gathered]
  | @drained ret lines =>
    obtain ⟨-, rest, left, reached⟩ :=
      readings_of_readsLines (s := ofSource source) lines (Or.inl (List.append_nil _).symm)
    rw [List.length_map] at reached
    refine ⟨_, ret, List.prefix_rfl, lines, ?_⟩
    rw [reached, reading, gather_of_left_nil left]

/-- The calls read the texts one by one, and then the end of the input. -/
theorem reading_eq (h : source.HoldsTexts texts) {k : Nat} (inside : k ≤ texts.length) :
    ((ofSource source).after k).reading = readingOf (texts.map Utf8.encode)[k]? := by
  obtain ⟨before, ret, ⟨later, split⟩, lines, ended⟩ := h.exists_readsLines
  rcases Nat.eq_or_lt_of_le inside with rfl | less
  · rw [ended, List.getElem?_eq_none (by rw [List.length_map])]
    rfl
  · have bound : k < (texts.map Utf8.encode).length := by rwa [List.length_map]
    have found := List.getElem?_eq_getElem bound
    rw [found]
    exact ((readings_of_readsLines (s := ofSource source) lines
      (Or.inl split.symm)).1 k _ found).1

/-- The summary of a source that is read to its end is that of its texts. -/
theorem result_eq (h : source.HoldsTexts texts) :
    (Pass.ofSource source).result = .ok (Summary.ofOutcomes (outcomes texts)) := by
  obtain ⟨before, ret, begins, lines, ended⟩ := h.exists_readsLines
  have final : (ofSource source).answer texts.length = Option.map .error none := by
    rw [answer, next_fst, nextText, ended]
    rfl
  rw [Pass.ofSource, transcript_of_readsLines lines begins final, Pass.ofTranscript,
    ofLines_numbered]
  rfl

end Source.HoldsTexts

theorem readingOf_injective : Function.Injective readingOf := by
  intro x y same
  cases x <;> cases y <;> simp_all [readingOf]

/-- A reading by which a stream answers the end of the input. -/
theorem eq_exhausted_of_next {s : LineStream} {r : Reading} {rest : Source} {ret : Bool}
    (gathered : gather s.afterReturn [] s.source = ⟨r, rest, ret⟩) (ended : s.next.1 = none) :
    r = .exhausted := by
  cases r with
  | exhausted => rfl
  | failed f =>
    rw [next_of_failed gathered] at ended
    cases ended
  | line bytes =>
    rw [next_of_line gathered] at ended
    cases ended

/-- A source holds texts or fails after some. -/
theorem holdsTexts_or_failsAfter (source : Source) :
    (∃ texts, source.HoldsTexts texts) ∨
      ∃ texts f read, read <+: source.steps ∧ FailsAfter texts f read := by
  obtain ⟨lines, failure, answers, final⟩ := exists_answers (ofSource source)
  have linesBefore : ∀ j < lines.length, ∃ line, (ofSource source).answer j = some (.ok line) :=
    fun j hj => ⟨_, answers j _ (List.getElem?_eq_getElem hj)⟩
  cases failure with
  | some f =>
    obtain ⟨read, texts, -, begins, fails⟩ := exists_failsAfter linesBefore final
    exact Or.inr ⟨texts, f, read, begins, fails⟩
  | none =>
    have start : (ofSource source).source.Left source.steps := Or.inl rfl
    obtain ⟨before, later, texts, ret, split, count, steps⟩ := exists_readsLines start linesBefore
    rw [split] at start
    obtain ⟨-, rest, left, reached⟩ := readings_of_readsLines steps start
    rw [List.length_map, count] at reached
    rw [answer, reached] at final
    refine Or.inl ⟨texts, ?_⟩
    rcases left with begins | ⟨-, rfl⟩
    · obtain ⟨last, later', r, ret', split', reads⟩ := exists_reads rest ret []
      obtain ⟨_, gathered, -⟩ := gather_of_reads reads split'
      obtain rfl := eq_exhausted_of_next (s := ⟨rest, _, ret⟩) gathered final
      refine .exhausted ⟨later', ?_⟩ steps reads
      rw [split, ← begins, split', List.append_assoc]
    · rw [List.append_nil] at split
      exact .drained (split ▸ steps)

theorem universalLines_of_holdsTexts {source : Source} (h : source.FaultFree)
    {texts : List (List Char)} (held : source.HoldsTexts texts) :
    universalLines source.bytes = texts.map Utf8.encode := by
  have readings : ∀ k, k ≤ texts.length →
      (universalLines source.bytes)[k]? = (texts.map Utf8.encode)[k]? := by
    intro k inside
    have read := held.reading_eq inside
    rw [ofSource, reading_of_pieces h 0 rfl] at read
    exact readingOf_injective read
  have ended : (texts.map Utf8.encode).length ≤ texts.length := by rw [List.length_map]
  have last := readings texts.length le_rfl
  rw [List.getElem?_eq_none ended, List.getElem?_eq_none_iff] at last
  apply List.ext_getElem?
  intro k
  rcases Nat.le_total k texts.length with inside | past
  · exact readings k inside
  · rw [List.getElem?_eq_none (ended.trans past), List.getElem?_eq_none (last.trans past)]

/-- **What a source without faults holds are the lines of its bytes.** -/
theorem holdsTexts_iff {source : Source} (h : source.FaultFree) (texts : List (List Char)) :
    source.HoldsTexts texts ↔ universalLines source.bytes = texts.map Utf8.encode := by
  refine ⟨universalLines_of_holdsTexts h, fun lines => ?_⟩
  rcases holdsTexts_or_failsAfter source with ⟨texts', held⟩ | ⟨texts', f, read, begins, fails⟩
  · have lines' := universalLines_of_holdsTexts h held
    obtain rfl : texts' = texts := Utf8.encode_injective.list_map (lines'.symm.trans lines)
    exact held
  · have failed := congrArg Pass.result (pass_of_failsAfter fails begins).2
    rw [result_of_faultFree h lines] at failed
    cases failed

end LatencyLog
