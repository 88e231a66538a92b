import LatencyLog.LineStream
import LatencyLog.Proofs.Framing.Gathering
import LatencyLog.Proofs.Utf8.Encoding

/-! # The answers of a line stream

* `LineStream.answer`: the answer to any of the calls for the next line.
* `LineStream.after`: the stream that a count of calls leaves.
* `LineStream.IsAnswer`: the answer that a line of bytes gets by its number.
* `answers_of_endedLines`: the calls for the lines that a source ends before its first fault.
* `answer_of_faultFree`: a source without faults is answered line by line, and then by the end of
  the input for ever.
-/

namespace LatencyLog.LineStream

set_option autoImplicit false

/-! ## Calls -/

/-- The stream after a count of calls for its next line. -/
def after (s : LineStream) : Nat → LineStream
  | 0 => s
  | k + 1 => s.next.2.after k

/-- The answer to the call that comes after `k` others. -/
def answer (s : LineStream) (k : Nat) : Option (Except ReadFailure ClassifiedLine) :=
  (s.after k).next.1

theorem after_add (s : LineStream) (m n : Nat) : s.after (m + n) = (s.after m).after n := by
  induction m generalizing s with
  | zero => rw [Nat.zero_add, after]
  | succ m ih =>
    rw [Nat.succ_add, after, after]
    exact ih s.next.2

theorem answer_add (s : LineStream) (m n : Nat) : s.answer (m + n) = (s.after m).answer n := by
  rw [answer, after_add, answer]

theorem after_succ (s : LineStream) (k : Nat) : s.after (k + 1) = (s.after k).next.2 := by
  rw [after_add]
  rfl

/-! ## Transcripts -/

/-- A transcript is the answers up to the first that is not a line. -/
theorem transcriptFrom_of_answers {s : LineStream} {lines : List ClassifiedLine}
    {failure : Option ReadFailure}
    (h : ∀ k line, lines[k]? = some line → s.answer k = some (.ok line))
    (final : s.answer lines.length = failure.map .error) (done : List ClassifiedLine) :
    transcriptFrom done s =
      ⟨done.reverse ++ lines, failure, (s.after (lines.length + 1)).answered⟩ := by
  induction lines generalizing s done with
  | nil =>
    rw [List.append_nil]
    cases failure with
    | none => exact transcriptFrom_of_end (Prod.ext final rfl)
    | some f => exact transcriptFrom_of_failure (Prod.ext final rfl)
  | cons line lines ih =>
    have first : s.next = (some (.ok line), s.next.2) := Prod.ext (h 0 line rfl) rfl
    rw [transcriptFrom_of_line first,
      ih (s := s.next.2) (fun k line hk => h (k + 1) line hk) final (line :: done)]
    simp [after]

/-! ## Answers to lines -/

/-- What a stream answers to the bytes of a line. -/
def lineAnswer (number : Nat) (line : List UInt8) : Except ReadFailure ClassifiedLine :=
  (classify line).map fun outcome => ⟨number, outcome⟩

/-- The answer to a line: its number and what its text amounts to, or that it is no text. -/
def IsAnswer (number : Nat) (line : List UInt8)
    (answer : Option (Except ReadFailure ClassifiedLine)) : Prop :=
  (∀ text, line = Utf8.encode text →
    answer = some (.ok ⟨number, Outcome.ofLine (String.ofList text)⟩)) ∧
  ((∀ text, line ≠ Utf8.encode text) →
    ∃ fault, Utf8.decode line = .error fault ∧
      answer = some (.error ⟨.invalidData, fault.message⟩))

theorem lineAnswer_encode (number : Nat) (text : List Char) :
    lineAnswer number (Utf8.encode text) =
      .ok ⟨number, Outcome.ofLine (String.ofList text)⟩ := by
  rw [lineAnswer, classify, Utf8.decode_encode]
  rfl

theorem isAnswer_lineAnswer (number : Nat) (line : List UInt8) :
    IsAnswer number line (some (lineAnswer number line)) := by
  constructor
  · rintro text rfl
    rw [lineAnswer_encode]
  · intro h
    obtain ⟨fault, hfault⟩ := Utf8.exists_fault_of_not_encoded h
    refine ⟨fault, hfault, ?_⟩
    rw [lineAnswer, classify, hfault]
    rfl

/-! ## One call -/

theorem next_of_line {s : LineStream} {bytes : List UInt8} {source : Source} {ret : Bool}
    (h : gather s.afterReturn [] s.source = ⟨.line bytes, source, ret⟩) :
    s.next = (some (lineAnswer (s.answered + 1) bytes), ⟨source, s.answered + 1, ret⟩) := by
  simp only [next, h, lineAnswer]

theorem next_of_failed {s : LineStream} {f : ReadFailure} {source : Source} {ret : Bool}
    (h : gather s.afterReturn [] s.source = ⟨.failed f, source, ret⟩) :
    s.next = (some (.error f), ⟨source, s.answered + 1, ret⟩) := by
  simp only [next, h]

theorem next_of_exhausted {s : LineStream} {source : Source} {ret : Bool}
    (h : gather s.afterReturn [] s.source = ⟨.exhausted, source, ret⟩) :
    s.next = (none, ⟨source, s.answered, ret⟩) := by
  simp only [next, h]

theorem unfinished_nil : unfinished [] = .exhausted := rfl

theorem unfinished_reverse_of_ne_nil {line : List UInt8} (h : line ≠ []) :
    unfinished line.reverse = .line line := by
  simp [unfinished, h]

/-! ## Lines ended before the first fault -/

/-- The lines that `P` ends are answered one by one, whatever comes after `P`. Then the rest of `P`
holds its last piece, and leaves the carriage return pending that `P` leaves. -/
theorem answers_of_endedLines {lines : List (List UInt8)} {last : List UInt8} {P : Source}
    (hP : P.FaultFree) (R : Source) (n : Nat) (ret : Bool)
    (h : pieces (afterLine ret P.bytes) = lines ++ [last]) :
    (∀ k line, lines[k]? = some line →
      answer ⟨P ++ R, n, ret⟩ k = some (lineAnswer (n + k + 1) line) ∧
        (after ⟨P ++ R, n, ret⟩ (k + 1)).answered = n + k + 1) ∧
    ∃ later : Source, ∃ ret', later.FaultFree ∧
      after ⟨P ++ R, n, ret⟩ lines.length = ⟨later ++ R, n + lines.length, ret'⟩ ∧
      pieces (afterLine ret' later.bytes) = [last] ∧
      returnPending ret' later.bytes = returnPending ret P.bytes := by
  induction lines generalizing P n ret with
  | nil =>
    refine ⟨?_, P, ret, hP, rfl, h, rfl⟩
    intro k line hk
    cases hk
  | cons first lines ih =>
    obtain ⟨later, ret', free, gathered, rest, pending⟩ :=
      gather_append_of_ended hP R (by simp) h []
    have called := next_of_line (s := ⟨P ++ R, n, ret⟩) gathered
    obtain ⟨answers, final⟩ := ih free (n + 1) ret' rest
    constructor
    · intro k line hk
      cases k with
      | zero =>
        rw [List.getElem?_cons_zero, Option.some.injEq] at hk
        subst hk
        exact ⟨congrArg Prod.fst called, congrArg (fun c => c.2.answered) called⟩
      | succ k =>
        obtain ⟨found, count⟩ := answers k line hk
        rw [answer, after, after, called]
        have shift : n + 1 + k + 1 = n + (k + 1) + 1 := by omega
        rw [← shift]
        exact ⟨found, count⟩
    · obtain ⟨later', ret'', free', reached, rest', pending'⟩ := final
      refine ⟨later', ret'', free', ?_, rest', pending'.trans pending⟩
      rw [List.length_cons, after, called, reached, Nat.add_assoc, Nat.add_comm 1]

/-- What the calls after those lines gather. -/
theorem gather_after_endedLines {P : Source} (hP : P.FaultFree) (R : Source) :
    ∃ later : Source, ∃ ret,
      (ofSource (P ++ R)).after (endedLines P.bytes).length =
        ⟨later, (endedLines P.bytes).length, ret⟩ ∧
      gather ret [] later =
        gather (returnPending false P.bytes) (lastPiece P.bytes).reverse R := by
  obtain ⟨-, later, ret, free, reached, rest, pending⟩ :=
    answers_of_endedLines hP R 0 false (pieces_eq_append P.bytes)
  refine ⟨later ++ R, ret, ?_, ?_⟩
  · rw [ofSource, reached, Nat.zero_add]
  · rw [gather_append_of_unended free R rest, pending, List.append_nil]

theorem answer_of_endedLine {P : Source} (hP : P.FaultFree) (R : Source) {k : Nat}
    {line : List UInt8} (h : (endedLines P.bytes)[k]? = some line) :
    (ofSource (P ++ R)).answer k = some (lineAnswer (k + 1) line) ∧
      ((ofSource (P ++ R)).after (k + 1)).answered = k + 1 := by
  have answers :=
    (answers_of_endedLines hP R 0 false (pieces_eq_append P.bytes)).1 k line h
  rwa [Nat.zero_add] at answers

/-! ## Sources without faults -/

theorem after_drained (n : Nat) (ret : Bool) (k : Nat) :
    after ⟨[], n, ret⟩ k = ⟨[], n, ret⟩ := by
  induction k with
  | zero => rfl
  | succ k ih => exact ih

/-- Once nothing is left, every call is answered by the end of the input. -/
theorem answer_of_drained {s : LineStream} {m n : Nat} {ret : Bool}
    (h : s.after m = ⟨[], n, ret⟩) {k : Nat} (hk : m ≤ k) :
    s.answer k = none ∧ (s.after k).answered = n ∧ (s.after (k + 1)).answered = n := by
  obtain ⟨j, rfl⟩ := Nat.exists_eq_add_of_le hk
  refine ⟨?_, ?_, ?_⟩
  · rw [answer, after_add, h, after_drained]
    rfl
  · rw [after_add, h, after_drained]
  · rw [Nat.add_assoc, after_add, h, after_drained]

/-- The calls for the lines of a source without faults, and the call after them. -/
theorem calls_of_faultFree {source : Source} (h : source.FaultFree) :
    (∀ k line, (universalLines source.bytes)[k]? = some line →
      (ofSource source).answer k = some (lineAnswer (k + 1) line) ∧
        ((ofSource source).after (k + 1)).answered = k + 1) ∧
    ((ofSource source).after (universalLines source.bytes).length).answered =
      (universalLines source.bytes).length ∧
    ∃ ret, ((ofSource source).after (universalLines source.bytes).length).next =
      (none, ⟨[], (universalLines source.bytes).length, ret⟩) := by
  have ended := fun k line (hk : (endedLines source.bytes)[k]? = some line) =>
    answer_of_endedLine h [] hk
  obtain ⟨later, ret, reached, gathered⟩ := gather_after_endedLines h []
  rw [List.append_nil] at ended reached
  rw [universalLines_eq]
  by_cases empty : lastPiece source.bytes = []
  · rw [if_pos empty, List.append_nil]
    refine ⟨ended, by rw [reached], returnPending false source.bytes, ?_⟩
    rw [empty] at gathered
    rw [reached, next_of_exhausted gathered]
  · rw [if_neg empty, List.length_append, List.length_singleton]
    rw [gather, unfinished_reverse_of_ne_nil empty] at gathered
    have called := next_of_line (s := ⟨later, (endedLines source.bytes).length, ret⟩) gathered
    have final : (ofSource source).after ((endedLines source.bytes).length + 1) =
        ⟨[], (endedLines source.bytes).length + 1, returnPending false source.bytes⟩ := by
      rw [after_succ, reached, called]
    refine ⟨?_, by rw [final], returnPending false source.bytes, by rw [final]; rfl⟩
    intro k line hk
    by_cases inside : k < (endedLines source.bytes).length
    · rw [List.getElem?_append_left inside] at hk
      exact ended k line hk
    · have last := (List.getElem?_eq_some_iff.mp hk).1
      rw [List.length_append, List.length_singleton] at last
      obtain rfl : k = (endedLines source.bytes).length := by omega
      rw [List.getElem?_concat_length, Option.some.injEq] at hk
      rw [answer, reached, called, final, hk]
      exact ⟨rfl, rfl⟩

/-- **A source without faults is answered line by line**, in order and by number, and then by the
end of the input for ever. -/
theorem answer_of_faultFree {source : Source} (h : source.FaultFree) :
    (∀ k line, (universalLines source.bytes)[k]? = some line →
      IsAnswer (k + 1) line ((ofSource source).answer k) ∧
        ((ofSource source).after (k + 1)).answered = k + 1) ∧
    ∀ k, (universalLines source.bytes).length ≤ k →
      (ofSource source).answer k = none ∧
        ((ofSource source).after k).answered = (universalLines source.bytes).length ∧
        ((ofSource source).after (k + 1)).answered = (universalLines source.bytes).length := by
  obtain ⟨lines, count, ret, end_⟩ := calls_of_faultFree h
  constructor
  · intro k line hk
    obtain ⟨answered, number⟩ := lines k line hk
    rw [answered]
    exact ⟨isAnswer_lineAnswer _ _, number⟩
  · intro k hk
    have drained : (ofSource source).after ((universalLines source.bytes).length + 1) =
        ⟨[], (universalLines source.bytes).length, ret⟩ := by
      rw [after_succ, end_]
    rcases Nat.eq_or_lt_of_le hk with rfl | later
    · exact ⟨congrArg Prod.fst end_, count, by rw [drained]⟩
    · exact answer_of_drained drained later

/-- A line end in two buffers, with an interruption between them, and a last line that is no
text. -/
theorem answer_of_pair_in_two_buffers :
    let source : Source :=
      [.buffer [0x31, 0x0D], .failure ⟨.interrupted, "again"⟩, .buffer [0x0A, 0xFF]]
    source.FaultFree ∧
      (ofSource source).answer 0 = some (.ok ⟨1, .skipped .notAnObject⟩) ∧
      (∃ f, (ofSource source).answer 1 = some (.error f) ∧ f.kind = .invalidData) ∧
      (ofSource source).answer 2 = none := by
  intro source
  have free : source.FaultFree := by decide
  have lines : universalLines source.bytes = [[0x31], [0xFF]] := by decide
  obtain ⟨answers, final⟩ := answer_of_faultFree free
  rw [lines] at answers final
  refine ⟨free, ?_, ?_, (final 2 (by decide)).1⟩
  · rw [(answers 0 _ rfl).1.1 ['1'] (by decide)]
    decide
  · have noText : ∀ text, [0xFF] ≠ Utf8.encode text := by
      intro text eq
      have refused : Utf8.decode [0xFF] = .error (.invalid 0 1) := rfl
      rw [Utf8.decode_eq_ok_iff.mpr eq] at refused
      cases refused
    obtain ⟨fault, -, answered⟩ := (answers 1 _ rfl).1.2 noText
    exact ⟨_, answered, rfl⟩

end LatencyLog.LineStream
