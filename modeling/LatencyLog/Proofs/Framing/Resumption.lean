import LatencyLog.Proofs.Framing.Answers

/-! # Going on after a failure or a reported end

What a line stream answers after the first fault of its source: what a new stream answers to what
the source delivers from there on. Only a carriage return that stands right before the fault is
remembered, so that a line feed that comes next is not a line end of its own.

* `Source.dropFirstLineFeed`: a source without the line feed that its bytes begin with.
* `Resumes`: one stream goes on as another does that has answered less.
* `answer_of_resumes`: it then gives the answers of the other, with larger numbers.
* `answer_of_faulty`: the answers of a source before, at and after its first fault.
-/

namespace LatencyLog

set_option autoImplicit false

/-! ## Dropping a line feed -/

/-- A source without the line feed that it delivers first, if that is its first byte; a buffer that
holds nothing else goes with it. -/
def Source.dropFirstLineFeed : Source → Source
  | [] => []
  | .buffer [] :: later => .buffer [] :: dropFirstLineFeed later
  | .buffer (b :: rest) :: later =>
    if b = lineFeed then
      if rest = [] then later else .buffer rest :: later
    else .buffer (b :: rest) :: later
  | .failure f :: later => .failure f :: dropFirstLineFeed later
  | .ended :: later => .ended :: dropFirstLineFeed later

/-- Two rests of an input that are read alike. In the second the line feed that the first would
pass over is gone. -/
inductive SameRest : Bool → Source → Bool → Source → Prop
  | same (ret : Bool) (source : Source) : SameRest ret source ret source
  | dropped (source : Source) : SameRest true source false source.dropFirstLineFeed

/-- Two readings with rests that are read alike. -/
def SameGathered (g g' : Gathered) : Prop :=
  g.reading = g'.reading ∧ SameRest g.afterReturn g.source g'.afterReturn g'.source

theorem SameGathered.refl (g : Gathered) : SameGathered g g := ⟨rfl, .same _ _⟩

theorem gather_dropFirstLineFeed (held : List UInt8) (source : Source) :
    SameGathered (gather true held source) (gather false held source.dropFirstLineFeed) := by
  induction source with
  | nil => exact ⟨rfl, .dropped []⟩
  | cons d later ih =>
    cases d with
    | ended => exact ⟨rfl, .dropped later⟩
    | failure f =>
      rw [Source.dropFirstLineFeed, gather, gather]
      by_cases interruption : f.isInterruption = true
      · rw [if_pos interruption, if_pos interruption]
        exact ih
      · rw [if_neg interruption, if_neg interruption]
        exact ⟨rfl, .dropped later⟩
    | buffer bytes =>
      cases bytes with
      | nil => exact ih
      | cons b rest =>
        rw [Source.dropFirstLineFeed]
        by_cases feed : b = lineFeed
        · have passed : gather true held (.buffer (b :: rest) :: later) =
              gather false held (.buffer rest :: later) := by
            rw [gather_buffer, gather_buffer, afterLine, if_pos rfl, dropLineFeed, if_pos feed]
            rfl
          rw [if_pos feed, passed]
          by_cases empty : rest = []
          · rw [if_pos empty, empty]
            exact .refl _
          · rw [if_neg empty]
            exact .refl _
        · have kept : gather true held (.buffer (b :: rest) :: later) =
              gather false held (.buffer (b :: rest) :: later) := by
            rw [gather_buffer, gather_buffer, afterLine, if_pos rfl, dropLineFeed, if_neg feed]
            rfl
          rw [if_neg feed, kept]
          exact .refl _

theorem gather_of_sameRest {ret ret' : Bool} {source source' : Source}
    (h : SameRest ret source ret' source') (held : List UInt8) :
    SameGathered (gather ret held source) (gather ret' held source') := by
  cases h with
  | same => exact .refl _
  | dropped => exact gather_dropFirstLineFeed held source

namespace LineStream

/-! ## Streams that go on alike -/

/-- The stream `s` has answered `n` times more than `t`, and what is left of their inputs is read
alike. -/
structure Resumes (n : Nat) (s t : LineStream) : Prop where
  answered : s.answered = n + t.answered
  rest : SameRest s.afterReturn s.source t.afterReturn t.source

/-- An answer with `n` added to the number of its line. -/
def renumber (n : Nat) (answer : Option (Except ReadFailure ClassifiedLine)) :
    Option (Except ReadFailure ClassifiedLine) :=
  answer.map (Except.map fun line => { line with number := n + line.number })

theorem renumber_lineAnswer (n number : Nat) (line : List UInt8) :
    renumber n (some (lineAnswer number line)) = some (lineAnswer (n + number) line) := by
  rw [lineAnswer, lineAnswer]
  cases classify line <;> rfl

theorem next_of_resumes {n : Nat} {s t : LineStream} (h : Resumes n s t) :
    s.next.1 = renumber n t.next.1 ∧ Resumes n s.next.2 t.next.2 := by
  obtain ⟨reading, rest⟩ := gather_of_sameRest h.rest []
  rcases hs : gather s.afterReturn [] s.source with ⟨r, source, ret⟩
  rcases ht : gather t.afterReturn [] t.source with ⟨r', source', ret'⟩
  rw [hs, ht] at reading rest
  subst reading
  cases r with
  | line bytes =>
    rw [next_of_line hs, next_of_line ht, h.answered, renumber_lineAnswer, Nat.add_assoc]
    exact ⟨rfl, rfl, rest⟩
  | failed f =>
    rw [next_of_failed hs, next_of_failed ht, h.answered, Nat.add_assoc]
    exact ⟨rfl, rfl, rest⟩
  | exhausted =>
    rw [next_of_exhausted hs, next_of_exhausted ht, h.answered]
    exact ⟨rfl, rfl, rest⟩

theorem after_of_resumes {n : Nat} {s t : LineStream} (h : Resumes n s t) (k : Nat) :
    Resumes n (s.after k) (t.after k) := by
  induction k generalizing s t with
  | zero => exact h
  | succ k ih => exact ih (next_of_resumes h).2

theorem answer_of_resumes {n : Nat} {s t : LineStream} (h : Resumes n s t) (k : Nat) :
    s.answer k = renumber n (t.answer k) :=
  (next_of_resumes (after_of_resumes h k)).1

/-! ## The first fault of a source -/

/-- What is left to a new stream of a source after a fault, given the bytes before the fault. -/
def restAfter (bytes : List UInt8) (source : Source) : Source :=
  if bytes.getLast? = some carriageReturn then source.dropFirstLineFeed else source

theorem sameRest_restAfter (bytes : List UInt8) (source : Source) :
    SameRest (returnPending false bytes) source false (restAfter bytes source) := by
  rw [restAfter, returnPending]
  cases bytes.getLast? with
  | none => exact .same false source
  | some b =>
    by_cases ret : b = carriageReturn
    · rw [if_pos (by rw [ret])]
      simp only [ret, beq_self_eq_true]
      exact .dropped source
    · rw [if_neg (by simpa using ret)]
      simp only [beq_eq_false_iff_ne.mpr ret]
      exact .same false source

/-- The answer at a fault, where `last` is the line begun before it: a failure is answered as it is
and the line is lost; at a reported end the line is answered, if there is one. -/
def IsFaultAnswer (number : Nat) (last : List UInt8) (fault : Delivery)
    (answer : Option (Except ReadFailure ClassifiedLine)) : Prop :=
  match fault with
  | .failure f => answer = some (.error f)
  | .ended => if last = [] then answer = none else IsAnswer number last answer
  | .buffer _ => False

/-- How many answers other than the end of the input a fault gets. -/
def faultAnswers (last : List UInt8) (fault : Delivery) : Nat :=
  if fault = .ended ∧ last = [] then 0 else 1

theorem next_of_fault {s : LineStream} {last : List UInt8} {pending : Bool} {F : Delivery}
    {Q : Source} (hF : F.isFaultFree = false)
    (h : gather s.afterReturn [] s.source = gather pending last.reverse (F :: Q)) :
    IsFaultAnswer (s.answered + 1) last F s.next.1 ∧
      s.next.2 = ⟨Q, s.answered + faultAnswers last F, pending⟩ := by
  cases F with
  | buffer bytes => cases hF
  | failure f =>
    have final : ¬ f.isInterruption = true := by
      rw [show f.isInterruption = false from hF]
      decide
    rw [gather, if_neg final] at h
    have notEnded : ¬(Delivery.failure f = .ended ∧ last = []) := by
      rintro ⟨⟨⟩, -⟩
    rw [next_of_failed h, faultAnswers, if_neg notEnded]
    exact ⟨rfl, rfl⟩
  | ended =>
    rw [gather] at h
    by_cases empty : last = []
    · rw [empty, List.reverse_nil, unfinished_nil] at h
      rw [next_of_exhausted h, faultAnswers, if_pos ⟨rfl, empty⟩, IsFaultAnswer, if_pos empty]
      exact ⟨rfl, rfl⟩
    · rw [unfinished_reverse_of_ne_nil empty] at h
      rw [next_of_line h, faultAnswers, if_neg fun both => empty both.2, IsFaultAnswer,
        if_neg empty]
      exact ⟨isAnswer_lineAnswer _ _, rfl⟩

/-- **A fault costs the line begun before it and nothing else**: the lines ended before it are
answered, then the fault, and then the rest of the source as by a new stream. -/
theorem answer_of_faulty {P Q : Source} {F : Delivery} (hP : P.FaultFree)
    (hF : F.isFaultFree = false) :
    let s := ofSource (P ++ F :: Q)
    let t := ofSource (restAfter P.bytes Q)
    let ended := (endedLines P.bytes).length
    let total := ended + faultAnswers (lastPiece P.bytes) F
    (∀ k line, (endedLines P.bytes)[k]? = some line →
      IsAnswer (k + 1) line (s.answer k) ∧ (s.after (k + 1)).answered = k + 1) ∧
    IsFaultAnswer (ended + 1) (lastPiece P.bytes) F (s.answer ended) ∧
    ∀ k, s.answer (ended + 1 + k) = renumber total (t.answer k) ∧
      (s.after (ended + 1 + k)).answered = total + (t.after k).answered := by
  intro s t ended total
  obtain ⟨later, ret, reached, gathered⟩ := gather_after_endedLines hP (F :: Q)
  obtain ⟨atFault, left⟩ := next_of_fault (s := ⟨later, ended, ret⟩) hF gathered
  have resumes : Resumes total (s.after (ended + 1)) t := by
    rw [after_succ, reached, left]
    exact ⟨rfl, sameRest_restAfter P.bytes Q⟩
  refine ⟨?_, ?_, ?_⟩
  · intro k line hk
    obtain ⟨answered, number⟩ := answer_of_endedLine hP (F :: Q) hk
    refine ⟨?_, number⟩
    rw [answered]
    exact isAnswer_lineAnswer _ _
  · rw [answer, reached]
    exact atFault
  · intro k
    rw [answer_add s (ended + 1) k, after_add s (ended + 1) k]
    exact ⟨answer_of_resumes resumes k, (after_of_resumes resumes k).answered⟩

/-- A failure between a carriage return and its line feed, which comes after a reported end. -/
theorem answer_of_failure_within_pair :
    let f : ReadFailure := ⟨.other "TimedOut", "late"⟩
    let P : Source := [.buffer [0x31, 0x0D]]
    let Q : Source := [.ended, .buffer [0x0A], .buffer [0x32]]
    let s := ofSource (P ++ .failure f :: Q)
    P.FaultFree ∧ (Delivery.failure f).isFaultFree = false ∧
      s.answer 0 = some (.ok ⟨1, .skipped .notAnObject⟩) ∧ s.answer 1 = some (.error f) ∧
      s.answer 2 = none ∧ s.answer 3 = some (.ok ⟨3, .skipped .notAnObject⟩) := by
  intro f P Q s
  have free : P.FaultFree := by decide
  have final : (Delivery.failure f).isFaultFree = false := by decide
  obtain ⟨ended, fault, rest⟩ := answer_of_faulty (Q := Q) free final
  refine ⟨free, final, ?_, fault, ?_, ?_⟩
  · rw [(ended 0 [0x31] rfl).1.1 ['1'] (by decide)]
    decide
  · exact (rest 0).1.trans (by decide)
  · exact (rest 1).1.trans (by decide)

end LineStream

end LatencyLog
