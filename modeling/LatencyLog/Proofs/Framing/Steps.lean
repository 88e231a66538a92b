import LatencyLog.Proofs.Framing.Concatenation

/-! # Reading step by step

What one reading takes from a source, whatever buffers its bytes come in.

* `Source.steps`: a source one byte at a time, and the end of the input after it.
* `Reads`: the steps that one reading takes.
* `gather_of_reads`, `exists_reads`: gathering takes the steps of a reading off the source, and
  every source begins with such steps.
* `Source.closed`: the bytes of a source, a reported end being a line end.
* `Reads.pieces_of_line`, `Reads.exists_last_step`: the pieces of the bytes that were read, and of
  those before the last step.
* `Reads.unique`: a source begins with the steps of one reading only.
-/

namespace LatencyLog

set_option autoImplicit false

/-! ## Steps -/

/-- A delivery, one byte at a time. -/
def Delivery.steps : Delivery → List Delivery
  | buffer bytes => bytes.map fun b => buffer [b]
  | failure f => [failure f]
  | ended => [ended]

/-- A source, one byte at a time, and the end of the input after it. -/
def Source.steps (s : Source) : Source := s.flatMap Delivery.steps ++ [.ended]

theorem Source.steps_cons (d : Delivery) (s : Source) : steps (d :: s) = d.steps ++ steps s := by
  rw [steps, List.flatMap_cons, List.append_assoc]
  rfl

/-- The steps that are left to read of a source. After the last of them the input has ended for
ever. -/
def Source.Left (s later : Source) : Prop := s.steps = later ∨ s = [] ∧ later = []

/-- The steps that one reading takes, from the bytes of the line begun to a line, a failure or the
end of the input. -/
inductive Reads : Bool → List UInt8 → Source → Reading → Bool → Prop where
  | passedFeed {held : List UInt8} {read : Source} {r : Reading} {ret : Bool}
      (h : Reads false held read r ret) : Reads true held (.buffer [lineFeed] :: read) r ret
  | feed (held : List UInt8) : Reads false held [.buffer [lineFeed]] (.line held.reverse) false
  | carriageReturn (ret : Bool) (held : List UInt8) :
      Reads ret held [.buffer [carriageReturn]] (.line held.reverse) true
  | byte {b : UInt8} (notFeed : b ≠ lineFeed) (notReturn : b ≠ LatencyLog.carriageReturn)
      {ret ret' : Bool} {held : List UInt8} {read : Source} {r : Reading}
      (h : Reads false (b :: held) read r ret') : Reads ret held (.buffer [b] :: read) r ret'
  | interruption {f : ReadFailure} (passed : f.isInterruption = true) {ret ret' : Bool}
      {held : List UInt8} {read : Source} {r : Reading} (h : Reads ret held read r ret') :
      Reads ret held (.failure f :: read) r ret'
  | failure {f : ReadFailure} (final : f.isInterruption = false) (ret : Bool)
      (held : List UInt8) : Reads ret held [.failure f] (.failed f) ret
  | ended (ret : Bool) (held : List UInt8) : Reads ret held [.ended] (unfinished held) ret

theorem Reads.ne_nil {ret ret' : Bool} {held : List UInt8} {read : Source} {r : Reading}
    (h : Reads ret held read r ret') : read ≠ [] := by
  cases h <;> exact List.cons_ne_nil _ _

/-! ## Gathering in steps -/

section

variable (held bytes : List UInt8) (later : Source)

theorem gather_emptyBuffer (ret : Bool) :
    gather ret held (.buffer [] :: later) = gather ret held later := by
  cases ret <;> rfl

theorem gather_passedFeed :
    gather true held (.buffer (lineFeed :: bytes) :: later) =
      gather false held (.buffer bytes :: later) := by
  rw [gather_buffer, gather_buffer, afterLine, if_pos rfl, dropLineFeed, if_pos rfl]
  rfl

theorem gather_feed :
    gather false held (.buffer (lineFeed :: bytes) :: later) =
      ⟨.line held.reverse, .buffer bytes :: later, false⟩ := rfl

theorem gather_return (ret : Bool) :
    gather ret held (.buffer (carriageReturn :: bytes) :: later) =
      ⟨.line held.reverse, .buffer bytes :: later, true⟩ := by
  cases ret <;> rfl

theorem gather_byte {b : UInt8} (notFeed : b ≠ lineFeed) (notReturn : b ≠ carriageReturn)
    (ret : Bool) :
    gather ret held (.buffer (b :: bytes) :: later) =
      gather false (b :: held) (.buffer bytes :: later) := by
  have kept : afterLine ret (b :: bytes) = b :: bytes := by
    cases ret with
    | false => rfl
    | true => exact if_neg notFeed
  rw [gather_buffer, gather_buffer, kept, cut, if_neg notFeed, if_neg notReturn,
    List.isEmpty_cons, Bool.and_false]
  rfl

end

/-- A source without the empty buffers that it begins with. -/
theorem exists_filled (source : Source) :
    ∃ source', source'.head? ≠ some (.buffer []) ∧ source.steps = source'.steps ∧
      ∀ ret held, gather ret held source = gather ret held source' := by
  induction source with
  | nil => exact ⟨[], by simp, rfl, fun _ _ => rfl⟩
  | cons d later ih =>
    by_cases empty : d = .buffer []
    · obtain ⟨source', filled, same, gathered⟩ := ih
      refine ⟨source', filled, ?_, ?_⟩
      · rw [empty, Source.steps_cons, same]
        rfl
      · intro ret held
        rw [empty, gather_emptyBuffer, gathered]
    · exact ⟨d :: later, by simpa using empty, rfl, fun _ _ => rfl⟩

theorem Source.steps_eq_byte {source later : Source} {b : UInt8}
    (h : source.steps = .buffer [b] :: later) :
    ∃ (bytes : List UInt8) (rest : Source), steps (.buffer bytes :: rest) = later ∧
      ∀ ret held, gather ret held source = gather ret held (.buffer (b :: bytes) :: rest) := by
  obtain ⟨source', filled, same, gathered⟩ := exists_filled source
  rw [same] at h
  match source', filled, h with
  | [], _, h => cases h
  | .buffer [] :: _, filled, _ => exact absurd rfl filled
  | .failure _ :: _, _, h => cases h
  | .ended :: _, _, h => cases h
  | .buffer (_ :: bytes) :: rest, _, h =>
    cases h
    exact ⟨bytes, rest, rfl, gathered⟩

theorem Source.steps_eq_failure {source later : Source} {f : ReadFailure}
    (h : source.steps = .failure f :: later) :
    ∃ rest : Source, rest.steps = later ∧
      ∀ ret held, gather ret held source = gather ret held (.failure f :: rest) := by
  obtain ⟨source', filled, same, gathered⟩ := exists_filled source
  rw [same] at h
  match source', filled, h with
  | [], _, h => cases h
  | .buffer [] :: _, filled, _ => exact absurd rfl filled
  | .buffer (_ :: _) :: _, _, h => cases h
  | .ended :: _, _, h => cases h
  | .failure _ :: rest, _, h =>
    cases h
    exact ⟨rest, rfl, gathered⟩

theorem Source.steps_eq_ended {source later : Source} (h : source.steps = .ended :: later) :
    ∃ rest : Source, rest.Left later ∧
      ∀ ret held, gather ret held source = ⟨unfinished held, rest, ret⟩ := by
  obtain ⟨source', filled, same, gathered⟩ := exists_filled source
  rw [same] at h
  match source', filled, h with
  | .buffer [] :: _, filled, _ => exact absurd rfl filled
  | .buffer (_ :: _) :: _, _, h => cases h
  | .failure _ :: _, _, h => cases h
  | [], _, h =>
    cases h
    exact ⟨[], Or.inr ⟨rfl, rfl⟩, gathered⟩
  | .ended :: rest, _, h =>
    cases h
    exact ⟨rest, Or.inl rfl, gathered⟩

/-- Gathering takes the steps of a reading off a source that begins with them. -/
theorem gather_of_reads {ret ret' : Bool} {held : List UInt8} {read : Source} {r : Reading}
    (h : Reads ret held read r ret') {source later : Source}
    (begins : source.steps = read ++ later) :
    ∃ rest : Source, gather ret held source = ⟨r, rest, ret'⟩ ∧ rest.Left later := by
  induction h generalizing source with
  | passedFeed h ih =>
    obtain ⟨bytes, rest, left, gathered⟩ := Source.steps_eq_byte begins
    rw [gathered, gather_passedFeed]
    exact ih left
  | feed held =>
    obtain ⟨bytes, rest, left, gathered⟩ := Source.steps_eq_byte begins
    rw [gathered, gather_feed]
    exact ⟨_, rfl, Or.inl left⟩
  | carriageReturn ret held =>
    obtain ⟨bytes, rest, left, gathered⟩ := Source.steps_eq_byte begins
    rw [gathered, gather_return]
    exact ⟨_, rfl, Or.inl left⟩
  | byte notFeed notReturn h ih =>
    obtain ⟨bytes, rest, left, gathered⟩ := Source.steps_eq_byte begins
    rw [gathered, gather_byte _ _ _ notFeed notReturn]
    exact ih left
  | interruption passed h ih =>
    obtain ⟨rest, left, gathered⟩ := Source.steps_eq_failure begins
    rw [gathered, gather_interruption passed]
    exact ih left
  | failure final ret held =>
    obtain ⟨rest, left, gathered⟩ := Source.steps_eq_failure begins
    rw [gathered, gather, if_neg (by simp [final])]
    exact ⟨rest, rfl, Or.inl left⟩
  | ended ret held =>
    obtain ⟨rest, left, gathered⟩ := Source.steps_eq_ended begins
    exact ⟨rest, gathered ret held, left⟩

/-- Every source begins with the steps of a reading. -/
theorem exists_reads (source : Source) (ret : Bool) (held : List UInt8) :
    ∃ read later r ret', source.steps = read ++ later ∧ Reads ret held read r ret' := by
  induction source generalizing ret held with
  | nil => exact ⟨[.ended], [], _, _, rfl, .ended ret held⟩
  | cons d source ih =>
    rw [Source.steps_cons]
    cases d with
    | ended => exact ⟨[.ended], Source.steps source, _, _, rfl, .ended ret held⟩
    | failure f =>
      by_cases passed : f.isInterruption = true
      · obtain ⟨read, later, r, ret', begins, reads⟩ := ih ret held
        exact ⟨.failure f :: read, later, r, ret', congrArg _ begins, .interruption passed reads⟩
      · exact ⟨[.failure f], Source.steps source, _, _, rfl,
          .failure (by simpa using passed) ret held⟩
    | buffer bytes =>
      induction bytes generalizing ret held with
      | nil => exact ih ret held
      | cons b bytes more =>
        by_cases feed : b = lineFeed
        · subst feed
          cases ret with
          | true =>
            obtain ⟨read, later, r, ret', begins, reads⟩ := more false held
            exact ⟨_ :: read, later, r, ret', congrArg _ begins, .passedFeed reads⟩
          | false => exact ⟨[_], _, _, _, rfl, .feed held⟩
        · by_cases ending : b = carriageReturn
          · subst ending
            exact ⟨[_], _, _, _, rfl, .carriageReturn ret held⟩
          · obtain ⟨read, later, r, ret', begins, reads⟩ := more false (b :: held)
            exact ⟨_ :: read, later, r, ret', congrArg _ begins, .byte feed ending reads⟩

/-! ## The bytes of steps -/

/-- The bytes that a delivery amounts to: at a reported end the line begun ends as at a line
feed. -/
def Delivery.closing : Delivery → List UInt8
  | buffer bytes => bytes
  | failure _ => []
  | ended => [lineFeed]

/-- The bytes of a source, with a line feed for each reported end. -/
def Source.closed (s : Source) : List UInt8 := s.flatMap Delivery.closing

theorem Source.closed_cons (d : Delivery) (s : Source) : closed (d :: s) = d.closing ++ closed s :=
  List.flatMap_cons

theorem Source.closed_append (s t : Source) : closed (s ++ t) = closed s ++ closed t :=
  List.flatMap_append

theorem afterLine_closed_byte {b : UInt8} (notFeed : b ≠ lineFeed) (ret : Bool) (read : Source) :
    afterLine ret (Source.closed (.buffer [b] :: read)) = b :: read.closed := by
  cases ret with
  | false => rfl
  | true => exact if_neg notFeed

/-- The bytes of a line that is read are a piece with its end. -/
theorem Reads.pieces_of_line {ret ret' : Bool} {held bytes : List UInt8} {read : Source}
    (h : Reads ret held read (.line bytes) ret') (fresh : held ≠ [] → ret = false) :
    ∃ body, bytes = held.reverse ++ body ∧ pieces (afterLine ret read.closed) = [body, []] ∧
      returnPending ret read.closed = ret' := by
  generalize reading : Reading.line bytes = r at h
  induction h with
  | passedFeed h ih =>
    obtain ⟨body, whole, split, pending⟩ := ih (fun _ => rfl) reading
    refine ⟨body, whole, split, ?_⟩
    rw [Source.closed_cons, ← pending, returnPending_append]
    rfl
  | feed held =>
    cases reading
    exact ⟨[], by simp, rfl, rfl⟩
  | carriageReturn ret held =>
    cases reading
    refine ⟨[], by simp, ?_, rfl⟩
    cases ret <;> rfl
  | @byte b notFeed notReturn ret ret' held read r h ih =>
    obtain ⟨body, whole, split, pending⟩ := ih (fun _ => rfl) reading
    have rest : pieces read.closed = [body, []] := split
    refine ⟨b :: body, by simp [whole], ?_, ?_⟩
    · rw [afterLine_closed_byte notFeed, pieces_other notFeed notReturn, rest]
      rfl
    · have other : returnPending ret [b] = false := beq_eq_false_iff_ne.mpr notReturn
      rw [Source.closed_cons, Delivery.closing, returnPending_append, other, pending]
  | interruption passed h ih => exact ih fresh reading
  | failure final ret held => cases reading
  | ended ret held =>
    cases held with
    | nil => cases reading
    | cons b held =>
      cases reading
      rw [fresh (List.cons_ne_nil b held)]
      exact ⟨[], by simp, rfl, rfl⟩

theorem Reads.pieces_of_whole_line {ret ret' : Bool} {line : List UInt8} {read : Source}
    (h : Reads ret [] read (.line line) ret') :
    pieces (afterLine ret read.closed) = [line, []] ∧ returnPending ret read.closed = ret' := by
  obtain ⟨body, whole, split, pending⟩ := h.pieces_of_line fun some => absurd rfl some
  rw [List.reverse_nil, List.nil_append] at whole
  rw [whole]
  exact ⟨split, pending⟩

/-- The last step that a reading takes is what it is answered by. Before it no line has ended, and
nothing but interruptions has failed. -/
theorem Reads.exists_last_step {ret ret' : Bool} {held : List UInt8} {read : Source} {r : Reading}
    (h : Reads ret held read r ret') :
    ∃ (before : Source) (step : Delivery) (begun : List UInt8), read = before ++ [step] ∧
      (∀ f, .failure f ∈ before → f.isInterruption = true) ∧
      (∀ f, step = .failure f → r = .failed f) ∧
      (∀ f, r = .failed f → step = .failure f ∧ f.isInterruption = false) ∧
      pieces (afterLine ret before.closed) = [begun] := by
  induction h with
  | passedFeed h ih =>
    obtain ⟨before, step, begun, rfl, passed, failing, failed, alone⟩ := ih
    exact ⟨_ :: before, step, begun, rfl, by simpa using passed, failing, failed, alone⟩
  | feed held => exact ⟨[], _, [], rfl, by simp, by simp, by simp, rfl⟩
  | carriageReturn ret held =>
    refine ⟨[], _, [], rfl, by simp, by simp, by simp, ?_⟩
    cases ret <;> rfl
  | @byte b notFeed notReturn ret ret' held read r h ih =>
    obtain ⟨before, step, begun, rfl, passed, failing, failed, alone⟩ := ih
    have rest : pieces before.closed = [begun] := alone
    have passed' : ∀ f, .failure f ∈ .buffer [b] :: before → f.isInterruption = true := by
      simpa using passed
    refine ⟨.buffer [b] :: before, step, b :: begun, rfl, passed', failing, failed, ?_⟩
    rw [afterLine_closed_byte notFeed, pieces_other notFeed notReturn, rest]
    rfl
  | @interruption f tried ret ret' held read r h ih =>
    obtain ⟨before, step, begun, rfl, passed, failing, failed, alone⟩ := ih
    refine ⟨.failure f :: before, step, begun, rfl, ?_, failing, failed, alone⟩
    intro g member
    cases member with
    | head => exact tried
    | tail _ member => exact passed g member
  | @failure f final ret held =>
    refine ⟨[], _, [], rfl, by simp, by simp, ?_, ?_⟩
    · intro g same
      cases same
      exact ⟨rfl, final⟩
    · cases ret <;> rfl
  | ended ret held =>
    refine ⟨[], _, [], rfl, by simp, by simp, ?_, ?_⟩
    · intro f same
      cases held <;> cases same
    · cases ret <;> rfl

/-! ## One reading only -/

/-- A source begins with the steps of one reading only. -/
theorem Reads.unique {ret ret₁ ret₂ : Bool} {held : List UInt8} {read₁ read₂ later₁ later₂ : Source}
    {r₁ r₂ : Reading} (h₁ : Reads ret held read₁ r₁ ret₁) (h₂ : Reads ret held read₂ r₂ ret₂)
    (same : read₁ ++ later₁ = read₂ ++ later₂) :
    read₁ = read₂ ∧ later₁ = later₂ ∧ r₁ = r₂ ∧ ret₁ = ret₂ := by
  induction h₁ generalizing read₂ with
  | passedFeed h ih =>
    cases h₂ with
    | passedFeed h' =>
      obtain ⟨rfl, rest⟩ := ih h' (List.cons.inj same).2
      exact ⟨rfl, rest⟩
    | byte notFeed =>
      injection same with first
      cases first
      exact absurd rfl notFeed
    | carriageReturn | interruption | failure | ended => cases same
  | feed held =>
    cases h₂ with
    | feed => exact ⟨rfl, (List.cons.inj same).2, rfl, rfl⟩
    | byte notFeed =>
      injection same with first
      cases first
      exact absurd rfl notFeed
    | carriageReturn | interruption | failure | ended => cases same
  | carriageReturn ret held =>
    cases h₂ with
    | carriageReturn => exact ⟨rfl, (List.cons.inj same).2, rfl, rfl⟩
    | byte notFeed notReturn =>
      injection same with first
      cases first
      exact absurd rfl notReturn
    | passedFeed | feed | interruption | failure | ended => cases same
  | byte notFeed notReturn h ih =>
    cases h₂ with
    | byte notFeed' notReturn' h' =>
      injection same with first more
      cases first
      obtain ⟨rfl, rest⟩ := ih h' more
      exact ⟨rfl, rest⟩
    | passedFeed | feed =>
      injection same with first
      cases first
      exact absurd rfl notFeed
    | carriageReturn =>
      injection same with first
      cases first
      exact absurd rfl notReturn
    | interruption | failure | ended => cases same
  | interruption passed h ih =>
    cases h₂ with
    | interruption passed' h' =>
      injection same with first more
      cases first
      obtain ⟨rfl, rest⟩ := ih h' more
      exact ⟨rfl, rest⟩
    | failure final =>
      injection same with first
      cases first
      rw [passed] at final
      cases final
    | passedFeed | feed | carriageReturn | byte | ended => cases same
  | failure final ret held =>
    cases h₂ with
    | failure =>
      injection same with first rest
      cases first
      exact ⟨rfl, rest, rfl, rfl⟩
    | interruption passed =>
      injection same with first
      cases first
      rw [passed] at final
      cases final
    | passedFeed | feed | carriageReturn | byte | ended => cases same
  | ended ret held =>
    cases h₂ with
    | ended => exact ⟨rfl, (List.cons.inj same).2, rfl, rfl⟩
    | passedFeed | feed | carriageReturn | byte | interruption | failure => cases same

end LatencyLog
