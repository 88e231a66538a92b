import LatencyLog.Proofs.Framing.DecodedTexts
import LatencyLog.Proofs.Framing.Steps
import LatencyLog.Proofs.Summary.Lines

/-! # The first failure ends a pass

A pass goes on to the first answer that is a failure, and tells how many lines it has read before.
What comes later in the source does not matter.

* `ReadsLines`: the steps of some lines, read one after the other.
* `SaysFault`: what is said of a line that is no text.
* `FailsAfter`: the steps of some lines and of the reading that fails after them.
* `FailsAfter.failsAtLast`: nothing has failed before the last of these steps.
* `FailsAfter.unique`: a source begins with such steps in one way only.
* `pass_of_failsAfter`: the pass over any source that begins with them.
* `pass_of_first_failure`: the pass over a source by the first answer that is no line.
-/

namespace LatencyLog

set_option autoImplicit false

open LineStream

/-! ## Lines in steps -/

/-- The steps that some lines take. -/
inductive ReadsLines : Bool → Source → List (List UInt8) → Bool → Prop where
  | nil (ret : Bool) : ReadsLines ret [] [] ret
  | cons {ret ret' ret'' : Bool} {read more : Source} {line : List UInt8}
      {lines : List (List UInt8)} (h : Reads ret [] read (.line line) ret')
      (rest : ReadsLines ret' more lines ret'') :
      ReadsLines ret (read ++ more) (line :: lines) ret''

theorem pieces_of_readsLines {ret ret' : Bool} {read : Source} {lines : List (List UInt8)}
    (h : ReadsLines ret read lines ret') :
    pieces (afterLine ret read.closed) = lines ++ [[]] ∧ returnPending ret read.closed = ret' := by
  induction h with
  | nil ret => cases ret <;> exact ⟨rfl, rfl⟩
  | @cons ret ret' ret'' read more line lines h rest ih =>
    obtain ⟨split, pending⟩ := h.pieces_of_whole_line
    have first : pieces (afterLine ret read.closed) = [line] ++ [[]] := split
    rw [Source.closed_append, pieces_append_of_pieces first, returnPending_append, pending, ih.1]
    refine ⟨?_, ih.2⟩
    cases lines <;> rfl

theorem endedLines_of_pieces {bytes last : List UInt8} {ended : List (List UInt8)}
    (h : pieces bytes = ended ++ [last]) : endedLines bytes = ended := by
  rw [endedLines, h, List.dropLast_concat]

/-- Nothing but interruptions fails in the steps of lines. -/
theorem failure_of_mem_readsLines {ret ret' : Bool} {read : Source} {lines : List (List UInt8)}
    (h : ReadsLines ret read lines ret') {f : ReadFailure} (member : .failure f ∈ read) :
    f.isInterruption = true := by
  induction h with
  | nil => cases member
  | cons h rest ih =>
    rcases List.mem_append.mp member with inside | later
    · obtain ⟨before, step, begun, rfl, passed, failing, -⟩ := h.exists_last_step
      rcases List.mem_append.mp inside with earlier | last
      · exact passed f earlier
      · cases failing f (List.mem_singleton.mp last).symm
    · exact ih later

/-! ## A failing reading -/

/-- What is said of a line that is no text. -/
inductive SaysFault (line : List UInt8) : String → Prop where
  | invalid {index length : Nat} (told : Utf8.decode line = .error (.invalid index length)) :
      SaysFault line ("invalid utf-8 sequence of " ++ toString length ++ " bytes from index " ++
        toString index)
  | incomplete {index : Nat} (told : Utf8.decode line = .error (.incomplete index)) :
      SaysFault line ("incomplete utf-8 byte sequence from index " ++ toString index)

theorem saysFault_iff {line : List UInt8} {message : String} :
    SaysFault line message ↔
      ∃ fault, Utf8.decode line = .error fault ∧ message = fault.message := by
  constructor
  · rintro (told | told)
    · exact ⟨_, told, rfl⟩
    · exact ⟨_, told, rfl⟩
  · rintro ⟨fault, told, rfl⟩
    cases fault with
    | invalid index length => exact .invalid told
    | incomplete index => exact .incomplete told

theorem textOf_line_eq_error_iff {line : List UInt8} {f : ReadFailure} :
    textOf (.line line) = some (.error f) ↔
      ∃ message, SaysFault line message ∧ f = ⟨.invalidData, message⟩ := by
  simp only [saysFault_iff, textOf]
  cases Utf8.decode line with
  | ok text => simp [Except.mapError]
  | error fault => simp [Except.mapError, eq_comm]

theorem ne_encode_of_saysFault {line : List UInt8} {message : String}
    (h : SaysFault line message) (text : List Char) : line ≠ Utf8.encode text := by
  rintro rfl
  obtain ⟨fault, told, -⟩ := saysFault_iff.mp h
  rw [Utf8.decode_encode] at told
  cases told

/-- The steps up to the first failure `f`, which comes after the lines of `texts`: the steps of
these lines, and those of one more reading. The last of them is the failure itself, or what ends a
line that is no text; nothing that comes later belongs to them. -/
inductive FailsAfter (texts : List (List Char)) : ReadFailure → Source → Prop where
  | failed {lines last : Source} {ret ret' : Bool} {f : ReadFailure}
      (before : ReadsLines false lines (texts.map Utf8.encode) ret)
      (final : Reads ret [] last (.failed f) ret') : FailsAfter texts f (lines ++ last)
  | unreadable {lines last : Source} {ret ret' : Bool} {line : List UInt8} {message : String}
      (before : ReadsLines false lines (texts.map Utf8.encode) ret)
      (final : Reads ret [] last (.line line) ret') (noText : ∀ text, line ≠ Utf8.encode text)
      (told : SaysFault line message) : FailsAfter texts ⟨.invalidData, message⟩ (lines ++ last)

/-- The last step of `read` is the first that fails. When it comes, the lines of `texts` have ended
and nothing but interruptions has failed; it is the failure `f`, or it ends a line that is no
text. -/
def FailsAtLast (texts : List (List Char)) (f : ReadFailure) (read : Source) : Prop :=
  ∃ (before : Source) (step : Delivery), read = before ++ [step] ∧
    (∀ g, .failure g ∈ before → g.isInterruption = true) ∧
    endedLines before.closed = texts.map Utf8.encode ∧
    (step = .failure f ∧ f.isInterruption = false ∨
      ∃ line message, endedLines read.closed = texts.map Utf8.encode ++ [line] ∧
        (∀ text, line ≠ Utf8.encode text) ∧ SaysFault line message ∧
        f = ⟨.invalidData, message⟩)

theorem failsAfter_of_reads {ret ret' : Bool} {lines last : Source} {texts : List (List Char)}
    {r : Reading} {f : ReadFailure} (before : ReadsLines false lines (texts.map Utf8.encode) ret)
    (final : Reads ret [] last r ret') (failing : textOf r = some (.error f)) :
    FailsAfter texts f (lines ++ last) := by
  cases r with
  | exhausted => cases failing
  | failed g =>
    cases failing
    exact .failed before final
  | line line =>
    obtain ⟨message, told, rfl⟩ := textOf_line_eq_error_iff.mp failing
    exact .unreadable before final (ne_encode_of_saysFault told) told

namespace FailsAfter

variable {texts texts' : List (List Char)} {f f' : ReadFailure} {read read' : Source}

theorem exists_reads (h : FailsAfter texts f read) :
    ∃ (lines last : Source) (ret ret' : Bool) (r : Reading), read = lines ++ last ∧
      ReadsLines false lines (texts.map Utf8.encode) ret ∧ Reads ret [] last r ret' ∧
      textOf r = some (.error f) := by
  cases h with
  | failed before final => exact ⟨_, _, _, _, _, rfl, before, final, rfl⟩
  | unreadable before final noText told =>
    exact ⟨_, _, _, _, _, rfl, before, final, textOf_line_eq_error_iff.mpr ⟨_, told, rfl⟩⟩

/-- Nothing has failed before the last step. -/
theorem failsAtLast (h : FailsAfter texts f read) : FailsAtLast texts f read := by
  obtain ⟨lines, last, ret, ret', r, rfl, before, final, failing⟩ := h.exists_reads
  obtain ⟨split, pending⟩ := pieces_of_readsLines before
  obtain ⟨begun, step, unended, rfl, passed, -, failed, alone⟩ := final.exists_last_step
  have passedOver : ∀ g, .failure g ∈ lines ++ begun → g.isInterruption = true := by
    intro g member
    rcases List.mem_append.mp member with inside | later
    · exact failure_of_mem_readsLines before inside
    · exact passed g later
  have ended : endedLines (lines ++ begun).closed = texts.map Utf8.encode := by
    have joined := pieces_append_of_pieces split begun.closed
    rw [pending, alone] at joined
    rw [Source.closed_append]
    exact endedLines_of_pieces joined
  refine ⟨lines ++ begun, step, (List.append_assoc _ _ _).symm, passedOver, ended, ?_⟩
  cases r with
  | exhausted => cases failing
  | failed g =>
    cases failing
    exact Or.inl (failed f rfl)
  | line line =>
    obtain ⟨whole, -⟩ := final.pieces_of_whole_line
    have joined := pieces_append_of_pieces split (Source.closed (begun ++ [step]))
    rw [pending, whole] at joined
    have grouped : pieces (Source.closed (lines ++ (begun ++ [step]))) =
        (texts.map Utf8.encode ++ [line]) ++ [[]] := by
      rw [Source.closed_append]
      simpa [afterLine] using joined
    obtain ⟨message, told, same⟩ := textOf_line_eq_error_iff.mp failing
    exact Or.inr ⟨line, message, endedLines_of_pieces grouped, ne_encode_of_saysFault told, told,
      same⟩

end FailsAfter

/-- Readings of texts that are followed by a failing one agree with each other, reading by
reading. -/
theorem readsLines_unique {texts texts' : List (List Char)} {ret ret₁ ret₂ ret₁' ret₂' : Bool}
    {lines lines' last last' later later' : Source} {r r' : Reading} {f f' : ReadFailure}
    (before : ReadsLines ret lines (texts.map Utf8.encode) ret₁)
    (final : Reads ret₁ [] last r ret₁') (failing : textOf r = some (.error f))
    (before' : ReadsLines ret lines' (texts'.map Utf8.encode) ret₂)
    (final' : Reads ret₂ [] last' r' ret₂') (failing' : textOf r' = some (.error f'))
    (same : lines ++ last ++ later = lines' ++ last' ++ later') :
    lines ++ last = lines' ++ last' ∧ texts = texts' ∧ f = f' := by
  induction texts generalizing texts' ret lines lines' with
  | nil =>
    cases before
    cases texts' with
    | nil =>
      cases before'
      obtain ⟨rfl, -, rfl, -⟩ := final.unique final' same
      have told : some (Except.error f) = some (Except.error f') := failing.symm.trans failing'
      cases told
      exact ⟨rfl, rfl, rfl⟩
    | cons text' texts' =>
      cases before' with
      | cons first rest =>
        rw [List.nil_append, List.append_assoc, List.append_assoc] at same
        obtain ⟨-, -, rfl, -⟩ := final.unique first same
        rw [textOf_encode] at failing
        cases failing
  | cons text texts ih =>
    cases before with
    | cons first rest =>
      cases texts' with
      | nil =>
        cases before'
        rw [List.nil_append, List.append_assoc, List.append_assoc] at same
        obtain ⟨-, -, rfl, -⟩ := first.unique final' same
        rw [textOf_encode] at failing'
        cases failing'
      | cons text' texts' =>
        cases before' with
        | cons first' rest' =>
          simp only [List.append_assoc] at same
          obtain ⟨rfl, more, told, rfl⟩ := first.unique first' same
          obtain rfl := Utf8.encode_injective (Reading.line.inj told)
          have shorter := ih rest rest' (by simpa using more)
          simpa using shorter

/-- A source begins in one way only with the steps up to a failure. -/
theorem FailsAfter.unique {texts texts' : List (List Char)} {f f' : ReadFailure}
    {read read' steps : Source} (h : FailsAfter texts f read) (h' : FailsAfter texts' f' read')
    (begins : read <+: steps) (begins' : read' <+: steps) :
    read = read' ∧ texts = texts' ∧ f = f' := by
  obtain ⟨lines, last, ret, _, r, rfl, before, final, failing⟩ := h.exists_reads
  obtain ⟨lines', last', ret', _, r', rfl, before', final', failing'⟩ := h'.exists_reads
  obtain ⟨later, split⟩ := begins
  obtain ⟨later', split'⟩ := begins'
  exact readsLines_unique before final failing before' final' failing' (split.trans split'.symm)

namespace LineStream

/-! ## Streams that begin with a reading -/

variable {s : LineStream} {read later : Source} {ret' : Bool}

theorem steps_of_left {source : Source} (left : source.Left (read ++ later)) (some : read ≠ []) :
    source.steps = read ++ later := by
  rcases left with begins | ⟨-, empty⟩
  · exact begins
  · exact absurd (List.append_eq_nil_iff.mp empty).1 some

theorem nextText_of_error {f : ReadFailure} (h : s.next.1 = some (.error f)) :
    s.nextText = some (.error f) := by
  rw [next_fst] at h
  cases told : s.nextText with
  | none => simp [told] at h
  | some read => cases read <;> simp_all [Except.map]

theorem exists_nextText_of_ok {line : ClassifiedLine} (h : s.next.1 = some (.ok line)) :
    ∃ text, s.nextText = some (.ok text) := by
  rw [next_fst] at h
  cases told : s.nextText with
  | none => simp [told] at h
  | some read => cases read <;> simp_all [Except.map]

theorem next_of_reads_failure {r : Reading} {f : ReadFailure}
    (h : Reads s.afterReturn [] read r ret') (failing : textOf r = some (.error f))
    (left : s.source.Left (read ++ later)) :
    s.next.1 = some (.error f) ∧ s.next.2.answered = s.answered + 1 := by
  obtain ⟨rest, gathered, -⟩ := gather_of_reads h (steps_of_left left h.ne_nil)
  constructor
  · rw [next_fst, nextText, reading, gathered, failing]
    rfl
  · cases r with
    | exhausted => cases failing
    | failed g => rw [next_of_failed gathered]
    | line bytes => rw [next_of_line gathered]

/-- A stream that begins with the steps of some lines reads them one by one, and goes on with what
comes after them. -/
theorem readings_of_readsLines {s : LineStream} {read : Source} {lines : List (List UInt8)}
    (h : ReadsLines s.afterReturn read lines ret') (left : s.source.Left (read ++ later)) :
    (∀ j line, lines[j]? = some line →
      (s.after j).reading = .line line ∧ (s.after j).answered = s.answered + j) ∧
    ∃ rest : Source, rest.Left later ∧
      s.after lines.length = ⟨rest, s.answered + lines.length, ret'⟩ := by
  induction lines generalizing s read with
  | nil =>
    cases h
    exact ⟨fun j line hj => (by cases hj), s.source, left, rfl⟩
  | cons line lines ih =>
    cases h with
    | cons first rest =>
      rw [List.append_assoc] at left
      obtain ⟨source, gathered, left'⟩ := gather_of_reads first (steps_of_left left first.ne_nil)
      have called := next_of_line gathered
      obtain ⟨readings, source', left'', reached⟩ :=
        ih (s := ⟨source, s.answered + 1, _⟩) rest left'
      constructor
      · intro j line' hj
        cases j with
        | zero =>
          rw [List.getElem?_cons_zero, Option.some.injEq] at hj
          rw [after, reading, gathered, hj]
          exact ⟨rfl, rfl⟩
        | succ j =>
          have shift : s.answered + 1 + j = s.answered + (j + 1) := by omega
          rw [← shift, after, called]
          exact readings j line' hj
      · refine ⟨source', left'', ?_⟩
        rw [List.length_cons, after, called, reached, Nat.add_assoc, Nat.add_comm 1]

/-- A stream that begins with the steps of some texts answers them one by one. -/
theorem answers_of_readsLines {s : LineStream} {read : Source} {texts : List (List Char)}
    (h : ReadsLines s.afterReturn read (texts.map Utf8.encode) ret')
    (left : s.source.Left (read ++ later)) {j : Nat} {text : List Char}
    (hj : texts[j]? = some text) :
    s.answer j = some (.ok ⟨s.answered + j + 1, Outcome.ofLine (String.ofList text)⟩) := by
  have found : (texts.map Utf8.encode)[j]? = some (Utf8.encode text) := by
    rw [List.getElem?_map, hj, Option.map_some]
  obtain ⟨read, number⟩ := (readings_of_readsLines h left).1 j _ found
  rw [answer, next_fst, nextText, read, textOf_encode, number]
  rfl

/-- A stream that does not answer the end of the input begins with the steps of a reading. -/
theorem exists_reads_of_answer {all : Source} (left : s.source.Left all)
    {a : Except ReadFailure ClassifiedLine} (answered : s.next.1 = some a) :
    ∃ (read later : Source) (ret' : Bool) (rest : Source), all = read ++ later ∧
      Reads s.afterReturn [] read s.reading ret' ∧ rest.Left later ∧
      gather s.afterReturn [] s.source = ⟨s.reading, rest, ret'⟩ := by
  rcases left with begins | ⟨drained, -⟩
  · obtain ⟨read, later, r, ret', split, reads⟩ := exists_reads s.source s.afterReturn []
    obtain ⟨rest, gathered, left⟩ := gather_of_reads reads split
    have same : s.reading = r := congrArg Gathered.reading gathered
    exact ⟨read, later, ret', rest, begins.symm.trans split, same ▸ reads, left, same ▸ gathered⟩
  · rw [next, drained] at answered
    cases answered

/-- The steps of the lines that a stream answers one by one. -/
theorem exists_readsLines {all : Source} (left : s.source.Left all) {k : Nat}
    (lines : ∀ j < k, ∃ line, s.answer j = some (.ok line)) :
    ∃ (read later : Source) (texts : List (List Char)) (ret' : Bool), all = read ++ later ∧
      texts.length = k ∧ ReadsLines s.afterReturn read (texts.map Utf8.encode) ret' := by
  induction k generalizing s all with
  | zero => exact ⟨[], all, [], s.afterReturn, rfl, rfl, .nil _⟩
  | succ k ih =>
    obtain ⟨line, first⟩ := lines 0 (Nat.succ_pos k)
    have called : s.next.1 = some (.ok line) := first
    obtain ⟨read, later, ret', rest, rfl, reads, left', gathered⟩ :=
      exists_reads_of_answer left called
    obtain ⟨text, told⟩ := exists_nextText_of_ok called
    rw [reading_of_nextText told] at reads gathered
    have laterLines : ∀ j < k, ∃ line, s.next.2.answer j = some (.ok line) :=
      fun j hj => lines (j + 1) (Nat.succ_lt_succ hj)
    rw [next_of_line gathered] at laterLines
    obtain ⟨more, later', texts, ret'', rfl, count, rest'⟩ := ih left' laterLines
    exact ⟨read ++ more, later', text :: texts, ret'', (List.append_assoc _ _ _).symm,
      congrArg Nat.succ count, .cons reads rest'⟩

/-- The steps of the reading by which a stream answers a failure. -/
theorem exists_reads_of_failure {all : Source} (left : s.source.Left all) {f : ReadFailure}
    (failed : s.next.1 = some (.error f)) :
    ∃ (read later : Source) (r : Reading) (ret' : Bool), all = read ++ later ∧
      Reads s.afterReturn [] read r ret' ∧ textOf r = some (.error f) := by
  obtain ⟨read, later, ret', -, split, reads, -⟩ := exists_reads_of_answer left failed
  exact ⟨read, later, s.reading, ret', split, reads, nextText_of_error failed⟩

end LineStream

/-! ## Passes -/

theorem getElem?_numbered (number : Nat) (os : List Outcome) (j : Nat) :
    (numbered number os)[j]? = os[j]?.map fun outcome => ⟨number + j, outcome⟩ := by
  induction os generalizing number j with
  | nil => rfl
  | cons o os ih =>
    cases j with
    | zero => rfl
    | succ j =>
      have shift : number + 1 + j = number + (j + 1) := by omega
      rw [numbered, List.getElem?_cons_succ, List.getElem?_cons_succ, ih, shift]

theorem length_numbered (number : Nat) (os : List Outcome) :
    (numbered number os).length = os.length := by
  rw [← List.length_map, map_outcome_numbered]

/-- The transcript of a source that begins with the steps of some texts, if no line is answered
after them. -/
theorem transcript_of_readsLines {source read : Source} {texts : List (List Char)} {ret : Bool}
    (lines : ReadsLines false read (texts.map Utf8.encode) ret) (begins : read <+: source.steps)
    {failure : Option ReadFailure}
    (final : (ofSource source).answer texts.length = failure.map .error) :
    (ofSource source).transcript =
      ⟨numbered 1 (outcomes texts), failure,
        ((ofSource source).after (texts.length + 1)).answered⟩ := by
  obtain ⟨later, split⟩ := begins
  have length : (numbered 1 (outcomes texts)).length = texts.length := by
    rw [length_numbered, outcomes, List.length_map]
  have listed : ∀ j line, (numbered 1 (outcomes texts))[j]? = some line →
      (ofSource source).answer j = some (.ok line) := by
    intro j line hj
    rw [getElem?_numbered, outcomes, List.getElem?_map, Option.map_map] at hj
    obtain ⟨text, found, rfl⟩ := Option.map_eq_some_iff.mp hj
    rw [answers_of_readsLines (s := ofSource source) lines (Or.inl split.symm) found]
    simp [ofSource, Nat.add_comm 1 j]
  rw [← length] at final
  rw [LineStream.transcript, transcriptFrom_of_answers listed final, length]
  rfl

/-- **A pass over some lines and then a failing reading** tells the skips among the lines and the
number of the line that it comes to, whatever the source delivers later. -/
theorem pass_of_failsAfter {source read : Source} {texts : List (List Char)} {f : ReadFailure}
    (h : FailsAfter texts f read) (begins : read <+: source.steps) :
    (∀ j text, texts[j]? = some text →
      (ofSource source).answer j = some (.ok ⟨j + 1, Outcome.ofLine (String.ofList text)⟩)) ∧
    Pass.ofSource source =
      ⟨skipEvents 1 (outcomes texts), .error (.readFailed (texts.length + 1) f)⟩ := by
  obtain ⟨before, last, ret, ret', r, rfl, lines, final, failing⟩ := h.exists_reads
  obtain ⟨later, split⟩ := begins
  rw [List.append_assoc] at split
  have left : (ofSource source).source.Left (before ++ (last ++ later)) := Or.inl split.symm
  obtain ⟨-, rest, left', reached⟩ := readings_of_readsLines (s := ofSource source) lines left
  rw [List.length_map] at reached
  have final' : Reads ((ofSource source).after texts.length).afterReturn [] last r ret' := by
    rw [reached]
    exact final
  have left'' : ((ofSource source).after texts.length).source.Left (last ++ later) := by
    rw [reached]
    exact left'
  obtain ⟨failed, count⟩ := next_of_reads_failure final' failing left''
  constructor
  · intro j text hj
    rw [answers_of_readsLines (s := ofSource source) lines left hj]
    simp [ofSource]
  · have ended : (ofSource source).answer texts.length = (some f).map .error := failed
    rw [Pass.ofSource, transcript_of_readsLines lines ⟨_, split⟩ ended, after_succ, count, reached,
      Pass.ofTranscript, filterMap_logEvent?_numbered]
    simp [ofSource]

/-- The answers of a stream up to the first that is no line. -/
theorem exists_answers (s : LineStream) :
    ∃ (lines : List ClassifiedLine) (failure : Option ReadFailure),
      (∀ j line, lines[j]? = some line → s.answer j = some (.ok line)) ∧
        s.answer lines.length = failure.map .error := by
  induction weight : s.source.weight using Nat.strong_induction_on generalizing s with
  | _ n ih =>
    rcases called : s.next with ⟨answer, rest⟩
    match answer with
    | none => exact ⟨[], none, fun j line hj => (by cases hj), congrArg Prod.fst called⟩
    | some (.error f) =>
      exact ⟨[], some f, fun j line hj => (by cases hj), congrArg Prod.fst called⟩
    | some (.ok line) =>
      have less := weight_next_lt called
      obtain ⟨lines, failure, answers, final⟩ := ih _ (weight ▸ less) rest rfl
      refine ⟨line :: lines, failure, ?_, ?_⟩
      · intro j line' hj
        cases j with
        | zero =>
          rw [List.getElem?_cons_zero, Option.some.injEq] at hj
          rw [← hj]
          exact congrArg Prod.fst called
        | succ j =>
          rw [LineStream.answer, after, called]
          exact answers j line' hj
      · rw [List.length_cons, LineStream.answer, after, called]
        exact final

theorem result_of_unfailing {source : Source}
    (h : ∀ k f, (∀ j < k, (ofSource source).answer j ≠ none) →
      (ofSource source).answer k ≠ some (.error f)) :
    ∃ summary, (Pass.ofSource source).result = .ok summary := by
  obtain ⟨lines, failure, answers, final⟩ := exists_answers (ofSource source)
  have some : ∀ j < lines.length, (ofSource source).answer j ≠ none := by
    intro j hj
    rw [answers j _ (List.getElem?_eq_getElem hj)]
    exact Option.some_ne_none _
  cases failure with
  | some f => exact absurd final (h lines.length f some)
  | none =>
    rw [Pass.ofSource, transcript, transcriptFrom_of_answers answers final]
    exact ⟨_, rfl⟩

/-- The steps up to the first answer that is no line, if it is a failure. -/
theorem exists_failsAfter {source : Source} {k : Nat} {f : ReadFailure}
    (linesBefore : ∀ j < k, ∃ line, (ofSource source).answer j = some (.ok line))
    (failed : (ofSource source).answer k = some (.error f)) :
    ∃ read texts, texts.length = k ∧ read <+: source.steps ∧ FailsAfter texts f read := by
  have start : (ofSource source).source.Left source.steps := Or.inl rfl
  obtain ⟨read, later, texts, ret, split, count, lines⟩ := exists_readsLines start linesBefore
  rw [split] at start
  obtain ⟨-, rest, left, reached⟩ := readings_of_readsLines lines start
  rw [List.length_map, count] at reached
  rw [answer, reached] at failed
  obtain ⟨last, later', r, ret', split', final, failing⟩ :=
    exists_reads_of_failure (s := ⟨rest, _, ret⟩) left failed
  refine ⟨read ++ last, texts, count, ⟨later', ?_⟩, failsAfter_of_reads lines final failing⟩
  rw [split, split', List.append_assoc]

/-- **The first failure before the end of the input ends a pass**: it is the result, with the number
of the line that it comes at; the log tells the skips among the lines before it; and what the source
delivers after the failure is not looked at. Without such a failure there is a summary. -/
theorem pass_of_first_failure (source : Source) :
    (∀ k f, (∀ j < k, ∃ line, (ofSource source).answer j = some (.ok line)) →
      (ofSource source).answer k = some (.error f) →
      ∃ read texts, texts.length = k ∧ read <+: source.steps ∧ FailsAfter texts f read ∧
        FailsAtLast texts f read ∧
        (∀ read' texts' f', read' <+: source.steps → FailsAfter texts' f' read' →
          read' = read ∧ texts' = texts ∧ f' = f) ∧
        (∀ j text, texts[j]? = some text → (ofSource source).answer j =
          some (.ok ⟨j + 1, Outcome.ofLine (String.ofList text)⟩)) ∧
        (Pass.ofSource source).result = .error (.readFailed (k + 1) f) ∧
        (Pass.ofSource source).log = skipEvents 1 (outcomes texts) ∧
        ∀ source' : Source, read <+: source'.steps →
          Pass.ofSource source' = Pass.ofSource source) ∧
    ((∀ k f, (∀ j < k, (ofSource source).answer j ≠ none) →
        (ofSource source).answer k ≠ some (.error f)) →
      ∃ summary, (Pass.ofSource source).result = .ok summary) := by
  refine ⟨fun k f linesBefore failed => ?_, result_of_unfailing⟩
  obtain ⟨read, texts, count, begins, fails⟩ := exists_failsAfter linesBefore failed
  obtain ⟨answers, pass⟩ := pass_of_failsAfter fails begins
  refine ⟨read, texts, count, begins, fails, fails.failsAtLast, ?_, answers, ?_, ?_, ?_⟩
  · intro read' texts' f' begins' fails'
    exact fails'.unique fails begins' begins
  · rw [pass, count]
  · rw [pass]
  · intro source' begins'
    rw [pass, (pass_of_failsAfter fails begins').2]

/-- A reported end within a line, and a failure between the carriage return of the next one and a
line feed. Without what comes after the failure the pass is the same. -/
theorem pass_of_failure_after_return :
    let f : ReadFailure := ⟨.other "TimedOut", "late"⟩
    let read : Source := [.buffer [0x31], .ended, .buffer [0x0D], .failure f]
    let source : Source := read ++ [.buffer [0x0A, 0xFF, 0x0A]]
    (∀ j < 2, ∃ line, (ofSource source).answer j = some (.ok line)) ∧
      (ofSource source).answer 2 = some (.error f) ∧
      (Pass.ofSource source).result = .error (.readFailed 3 f) ∧
      (Pass.ofSource source).log = [.skippingLine 1 .notAnObject, .skippingLine 2 .blank] ∧
      Pass.ofSource read = Pass.ofSource source := by
  intro f read source
  have first : (ofSource source).answer 0 = some (.ok ⟨1, .skipped .notAnObject⟩) := by decide
  have second : (ofSource source).answer 1 = some (.ok ⟨2, .skipped .blank⟩) := by decide
  have failed : (ofSource source).answer 2 = some (.error f) := by decide
  have lines : ∀ j < 2, ∃ line, (ofSource source).answer j = some (.ok line)
    | 0, _ => ⟨_, first⟩
    | 1, _ => ⟨_, second⟩
  obtain ⟨read', texts, count, -, -, -, unique, answers, result, log, later⟩ :=
    (pass_of_first_failure source).1 2 f lines failed
  have stepByStep : ReadsLines false ([.buffer [0x31], .ended] ++ ([.buffer [0x0D]] ++ []))
      ([['1'], []].map Utf8.encode) true :=
    .cons (.byte (by decide) (by decide) (.ended false [0x31]))
      (.cons (.carriageReturn false []) (.nil true))
  have fails : FailsAfter [['1'], []] f read := .failed stepByStep (.failure rfl true [])
  obtain ⟨rfl, rfl, -⟩ := unique read _ f ⟨_, rfl⟩ fails
  refine ⟨lines, failed, result, ?_, later read ⟨_, rfl⟩⟩
  have told : Outcome.ofLine (String.ofList ['1']) = .skipped .notAnObject := by
    simpa [first] using (answers 0 _ rfl).symm
  have told' : Outcome.ofLine (String.ofList []) = .skipped .blank := by
    simpa [second] using (answers 1 _ rfl).symm
  rw [log, outcomes, List.map_cons, List.map_cons, told, told']
  rfl

end LatencyLog
