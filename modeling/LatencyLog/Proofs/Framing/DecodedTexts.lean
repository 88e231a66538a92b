import LatencyLog.Proofs.Framing.Answers
import LatencyLog.Proofs.Framing.CharacterLines

/-! # The texts that are decoded

* `freeOfEnds_of_gather`: no line that is gathered has a line end in it.
* `LineStream.nextText`: the text of the next line; `LineStream.next_fst` says that the answer is
  what this text amounts to.
* `LineStream.reading_of_pieces`: the calls read the pieces of the bytes one by one.
* `LineStream.texts_of_faultFree`: the texts that a source without faults is read as.
-/

namespace LatencyLog

set_option autoImplicit false

open Utf8

/-! ## Lines without line ends -/

theorem freeOfEnds_of_unfinished {held line : List UInt8} (free : FreeOfEnds held)
    (h : unfinished held = .line line) : FreeOfEnds line := by
  rw [unfinished] at h
  split at h
  · cases h
  · cases h
    exact free.reverse

/-- **A line that is gathered has no line end in it**, whatever the source delivers. -/
theorem freeOfEnds_of_gather {ret : Bool} {held line : List UInt8} {source : Source}
    (free : FreeOfEnds held) (h : (gather ret held source).reading = .line line) :
    FreeOfEnds line := by
  induction source generalizing ret held with
  | nil => exact freeOfEnds_of_unfinished free h
  | cons delivery later ih =>
    cases delivery with
    | ended => exact freeOfEnds_of_unfinished free h
    | failure f =>
      rw [gather] at h
      split at h
      · exact ih free h
      · cases h
    | buffer bytes =>
      rw [gather_buffer] at h
      split at h
      next whole byReturn rest split =>
        obtain ⟨body, rfl, bodyFree, -⟩ := pieces_of_cut_ended split
        cases h
        exact (bodyFree.reverse.append free).reverse
      next whole split =>
        obtain ⟨rfl, bytesFree⟩ := freeOfEnds_of_cut_unended split
        exact ih (bytesFree.reverse.append free) h

namespace LineStream

/-! ## Texts -/

/-- The text that a reading is decoded to, or the failure that it amounts to. -/
def textOf : Reading → Option (Except ReadFailure (List Char))
  | .exhausted => none
  | .failed f => some (.error f)
  | .line bytes =>
    some ((Utf8.decode bytes).mapError fun fault => ⟨.invalidData, fault.message⟩)

/-- What the next call for a line reads. -/
def reading (s : LineStream) : Reading := (gather s.afterReturn [] s.source).reading

/-- The text of the next line, or the failure to read it. -/
def nextText (s : LineStream) : Option (Except ReadFailure (List Char)) := textOf s.reading

/-- The answer to a call is what the text of its line amounts to. -/
theorem next_fst (s : LineStream) :
    s.next.1 = s.nextText.map fun read =>
      read.map fun text => ⟨s.answered + 1, Outcome.ofLine (String.ofList text)⟩ := by
  cases gathered : gather s.afterReturn [] s.source with
  | mk read source ret =>
    rw [nextText, reading, gathered]
    cases read with
    | exhausted => rw [next_of_exhausted gathered, textOf, Option.map_none]
    | failed f =>
      rw [next_of_failed gathered]
      rfl
    | line bytes =>
      rw [next_of_line gathered, lineAnswer, classify, textOf]
      cases Utf8.decode bytes <;> rfl

theorem textOf_encode (text : List Char) : textOf (.line (Utf8.encode text)) = some (.ok text) := by
  rw [textOf, Utf8.decode_encode]
  rfl

/-- Only the encoding of a text is decoded to it. -/
theorem reading_of_nextText {s : LineStream} {text : List Char}
    (h : s.nextText = some (.ok text)) : s.reading = .line (encode text) := by
  rw [nextText] at h
  cases read : s.reading with
  | exhausted =>
    rw [read] at h
    cases h
  | failed f =>
    rw [read] at h
    cases h
  | line bytes =>
    rw [read, textOf, Option.some.injEq] at h
    cases decoded : Utf8.decode bytes with
    | error fault =>
      rw [decoded] at h
      cases h
    | ok other =>
      rw [decoded] at h
      cases h
      rw [Utf8.decode_eq_ok_iff.mp decoded]

/-- **No text that is decoded has a line end in it**, whatever the source delivers. -/
theorem unbroken_of_nextText {s : LineStream} {text : List Char}
    (h : s.nextText = some (.ok text)) : Unbroken text := by
  have free : FreeOfEnds (encode text) :=
    freeOfEnds_of_gather (List.forall_mem_nil _) (reading_of_nextText h)
  exact ⟨fun inside => (free _ ((lineFeed_mem_encode_iff text).mpr inside)).1 rfl,
    fun inside => (free _ ((carriageReturn_mem_encode_iff text).mpr inside)).2 rfl⟩

/-! ## Readings of a source without faults -/

/-- The reading that a line gives, or the end of the input. -/
def readingOf : Option (List UInt8) → Reading
  | some line => .line line
  | none => .exhausted

theorem reading_of_drained (n : Nat) (ret : Bool) (k : Nat) :
    (after ⟨[], n, ret⟩ k).reading = .exhausted := by
  rw [after_drained]
  rfl

/-- The calls read the pieces one by one, and then the end of the input. -/
theorem reading_of_pieces {ps : List (List UInt8)} {P : Source} (hP : P.FaultFree) (n : Nat)
    {ret : Bool} (h : pieces (afterLine ret P.bytes) = ps) (k : Nat) :
    (after ⟨P, n, ret⟩ k).reading = readingOf (withoutEmptyLast ps)[k]? := by
  induction ps generalizing P n ret k with
  | nil => exact absurd h (pieces_ne_nil _)
  | cons line more ih =>
    by_cases last : more = []
    · subst last
      have gathered := gather_append_of_unended hP [] h []
      rw [List.append_nil, List.append_nil, gather] at gathered
      by_cases empty : line = []
      · subst empty
        have called := next_of_exhausted (s := ⟨P, n, ret⟩) gathered
        cases k with
        | zero => exact congrArg Gathered.reading gathered
        | succ k =>
          rw [after, called]
          exact reading_of_drained n _ k
      · rw [unfinished_reverse_of_ne_nil empty] at gathered
        have called := next_of_line (s := ⟨P, n, ret⟩) gathered
        have whole : withoutEmptyLast [line] = [line] := by simp [withoutEmptyLast, empty]
        rw [whole]
        cases k with
        | zero => exact congrArg Gathered.reading gathered
        | succ k =>
          rw [after, called]
          exact reading_of_drained _ _ k
    · obtain ⟨later, ret', free, gathered, rest, -⟩ := gather_append_of_ended hP [] last h []
      rw [List.append_nil, List.append_nil] at gathered
      have called := next_of_line (s := ⟨P, n, ret⟩) gathered
      rw [withoutEmptyLast_cons line last]
      cases k with
      | zero => exact congrArg Gathered.reading gathered
      | succ k =>
        rw [after, called]
        exact ih free (n + 1) rest k

theorem nextText_of_faultFree {source : Source} (h : source.FaultFree) (k : Nat) :
    ((ofSource source).after k).nextText =
      textOf (readingOf (universalLines source.bytes)[k]?) := by
  rw [nextText, ofSource, reading_of_pieces h 0 rfl k]
  rfl

section Encoded

variable {source : Source} {text : List Char}

theorem nextText_of_encoded (h : source.FaultFree) (encoded : source.bytes = encode text)
    (k : Nat) : ((ofSource source).after k).nextText = (Text.lines text)[k]?.map .ok := by
  rw [nextText_of_faultFree h, encoded, universalLines_encode, List.getElem?_map]
  cases (Text.lines text)[k]? with
  | none => rfl
  | some line => exact textOf_encode line

theorem answer_of_encoded (h : source.FaultFree) (encoded : source.bytes = encode text)
    (k : Nat) :
    (ofSource source).answer k = (Text.lines text)[k]?.map fun line =>
      .ok ⟨k + 1, Outcome.ofLine (String.ofList line)⟩ := by
  obtain ⟨lines, final⟩ := answer_of_faultFree h
  rw [encoded, universalLines_encode] at lines final
  cases found : (Text.lines text)[k]? with
  | none =>
    rw [List.getElem?_eq_none_iff] at found
    exact (final k (by rwa [List.length_map])).1
  | some line =>
    have bytes : ((Text.lines text).map encode)[k]? = some (encode line) := by
      rw [List.getElem?_map, found, Option.map_some]
    exact (lines k _ bytes).1.1 line rfl

end Encoded

/-- If no answer says that bytes are no text, then all bytes are one. -/
theorem exists_encode_of_answers {source : Source} (h : source.FaultFree)
    (clean : ∀ k f, (ofSource source).answer k = some (.error f) → f.kind ≠ .invalidData) :
    ∃ text, source.bytes = encode text := by
  apply exists_encode_of_universalLines
  intro line member
  obtain ⟨k, found⟩ := List.mem_iff_getElem?.mp member
  cases decoded : Utf8.decode line with
  | ok text => exact ⟨text, Utf8.decode_eq_ok_iff.mp decoded⟩
  | error fault =>
    have read : ((ofSource source).after k).nextText =
        some (.error ⟨.invalidData, fault.message⟩) := by
      rw [nextText_of_faultFree h, found, readingOf, textOf, decoded]
      rfl
    have answered : (ofSource source).answer k = some (.error ⟨.invalidData, fault.message⟩) := by
      rw [answer, next_fst, read]
      rfl
    exact absurd rfl (clean k _ answered)

/-- **A source without faults is decoded line by line as its bytes are decoded as a whole**,
wherever they are cut into buffers. No answer says that bytes are no text if and only if all bytes
are one; its lines are then the texts decoded, and what they amount to is answered. No text decoded
has a line end in it. -/
theorem texts_of_faultFree {source : Source} (h : source.FaultFree) :
    ((∀ k f, (ofSource source).answer k = some (.error f) → f.kind ≠ .invalidData) ↔
        ∃ text, source.bytes = encode text) ∧
      (∀ text, source.bytes = encode text → ∀ k,
        ((ofSource source).after k).nextText = (Text.lines text)[k]?.map .ok ∧
          (ofSource source).answer k = (Text.lines text)[k]?.map fun line =>
            .ok ⟨k + 1, Outcome.ofLine (String.ofList line)⟩) ∧
      ∀ k line, ((ofSource source).after k).nextText = some (.ok line) → Unbroken line := by
  refine ⟨⟨exists_encode_of_answers h, ?_⟩, ?_, fun k line => unbroken_of_nextText⟩
  · rintro ⟨text, encoded⟩ k f answered
    rw [answer_of_encoded h encoded] at answered
    cases found : (Text.lines text)[k]? with
    | none =>
      rw [found] at answered
      cases answered
    | some line =>
      rw [found] at answered
      cases answered
  · intro text encoded k
    exact ⟨nextText_of_encoded h encoded k, answer_of_encoded h encoded k⟩

/-- A character in two buffers, with an interruption between them, and a line end in two. -/
theorem texts_of_character_in_two_buffers :
    let source : Source :=
      [.buffer [0xE2, 0x82], .failure ⟨.interrupted, "again"⟩, .buffer [0xAC, 0x0D],
        .buffer [0x0A, 0x61]]
    source.FaultFree ∧ source.bytes = encode ['€', '\r', '\n', 'a'] ∧
      (ofSource source).nextText = some (.ok ['€']) ∧
      (ofSource source).next.2.nextText = some (.ok ['a']) ∧
      ((ofSource source).after 2).nextText = none ∧
      ∀ k f, (ofSource source).answer k = some (.error f) → f.kind ≠ .invalidData := by
  intro source
  have free : source.FaultFree := by decide
  have encoded : source.bytes = encode ['€', '\r', '\n', 'a'] := by decide
  obtain ⟨clean, texts, -⟩ := texts_of_faultFree free
  exact ⟨free, encoded, (texts _ encoded 0).1, (texts _ encoded 1).1, (texts _ encoded 2).1,
    clean.mpr ⟨_, encoded⟩⟩

end LineStream

end LatencyLog
