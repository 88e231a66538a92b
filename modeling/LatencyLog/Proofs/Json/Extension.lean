import LatencyLog.Proofs.Json.Reading

/-! # Texts that go on after a value

What the machine can still read where its text might end. A number may go on as a number; any other
value can only be followed by a gap.

* `Json.State.run_finished_eq_some_iff`: after the value of the whole text, a gap and nothing else.
* `Json.State.atEnd_ne_object_of_number`: a number outside all lists and objects never becomes an
  object.
* `Json.isGap_of_read_append`: a text that is read and goes on to be an object goes on by a gap.
* `Json.read_append_of_object`: what may stand after an object.
-/

namespace LatencyLog.Json

set_option autoImplicit false

namespace State

variable {frames : List Frame} {s t : State} {v : Value} {rest : List Char}

/-! ## After the value of the text -/

theorem step_finished_of_not_isSpace {c : Char} (h : isSpace c = false) :
    (State.mk frames (.pause (.finished v))).step c = .error ⟨.trailingCharacters, 1⟩ := by
  simp only [step, stepPause, h, Bool.false_eq_true, if_false]

theorem run_finished_eq_some_iff :
    (State.mk frames (.pause (.finished v))).run rest = some t ↔
      IsGap rest ∧ t = ⟨frames, .pause (.finished v)⟩ := by
  constructor
  · intro reached
    induction rest with
    | nil => exact ⟨List.forall_mem_nil _, (Option.some.inj reached).symm⟩
    | cons c rest ih =>
      cases space : isSpace c with
      | false =>
        rw [run_cons_of_error (step_finished_of_not_isSpace space)] at reached
        cases reached
      | true =>
        rw [run_cons (step_pause_of_isSpace _ c space)] at reached
        obtain ⟨gap, same⟩ := ih reached
        exact ⟨List.forall_mem_cons.mpr ⟨space, gap⟩, same⟩
  · rintro ⟨gap, rfl⟩
    exact run_gap (step_pause_of_isSpace _) gap

/-! ## After a number -/

theorem pauseAtEnd_eq_ok {place : Pause} (h : pauseAtEnd place = .ok v) : place = .finished v := by
  cases place with
  | finished w =>
    cases h
    rfl
  | item items => cases h
  | member members => cases h

theorem complete_eq_finished {w : Value} (h : (complete frames v).2 = .finished w) :
    frames = [] ∧ v = w := by
  cases frames with
  | nil =>
    cases h
    exact ⟨rfl, rfl⟩
  | cons f frames => cases f <;> cases h

/-- The machine ends after the value of the text, or within a number that is this value. -/
theorem finished_or_number_of_atEnd (h : s.atEnd = .ok v) :
    (∃ frames, s = ⟨frames, .pause (.finished v)⟩) ∨
      ∃ l n, s = ⟨[], .number l⟩ ∧ v = .number n := by
  obtain ⟨frames, phase⟩ := s
  cases phase with
  | pause place =>
    left
    obtain rfl := pauseAtEnd_eq_ok h
    exact ⟨frames, rfl⟩
  | number l =>
    right
    cases number : l.number with
    | error cause =>
      simp only [atEnd, number] at h
      cases h
    | ok n =>
      simp only [atEnd, number] at h
      obtain ⟨rfl, rfl⟩ := complete_eq_finished (pauseAtEnd_eq_ok h)
      exact ⟨l, n, rfl, rfl⟩
  | value => cases h
  | firstItem => cases h
  | nextItem items => cases h
  | firstKey => cases h
  | nextKey members => cases h
  | key members quoted => cases h
  | colon members key => cases h
  | word w next following => cases h
  | text quoted => cases h

/-- One more character of a number outside all lists and objects goes on with it or follows it. -/
theorem step_number_cases {l : Literal} {c : Char}
    (read : (State.mk [] (.number l)).step c = .ok t) :
    (∃ m, t = ⟨[], .number m⟩) ∨ ∃ n, t = ⟨[], .pause (.finished (.number n))⟩ := by
  simp only [step, stepNumber] at read
  cases advance : l.step c with
  | error halt =>
    rw [advance] at read
    cases read
  | ok more =>
    rw [advance] at read
    cases more with
    | some m =>
      cases read
      exact Or.inl ⟨m, rfl⟩
    | none =>
      cases number : l.number with
      | error cause =>
        rw [number] at read
        cases read
      | ok n =>
        rw [number] at read
        have followed : stepPause [] (.finished (.number n)) c = .ok t := read
        unfold stepPause at followed
        split_ifs at followed
        cases followed
        exact Or.inr ⟨n, rfl⟩

theorem atEnd_ne_object_of_number {l : Literal}
    (reached : (State.mk [] (.number l)).run rest = some t) (members : List (String × Value)) :
    t.atEnd ≠ .ok (.object members) := by
  intro ended
  induction rest generalizing l with
  | nil =>
    obtain rfl := Option.some.inj reached
    rcases finished_or_number_of_atEnd ended with ⟨frames, same⟩ | ⟨-, n, -, same⟩
    · cases same
    · cases same
  | cons c rest ih =>
    cases read : (State.mk [] (.number l)).step c with
    | error halt =>
      rw [run_cons_of_error read] at reached
      cases reached
    | ok next =>
      rw [run_cons read] at reached
      rcases step_number_cases read with ⟨m, rfl⟩ | ⟨n, rfl⟩
      · exact ih reached
      · obtain ⟨-, rfl⟩ := run_finished_eq_some_iff.mp reached
        cases ended

/-- Where a text might end and goes on to be an object, the object has ended already. -/
theorem isGap_of_atEnd {members : List (String × Value)} (might : s.atEnd = .ok v)
    (reached : s.run rest = some t) (ended : t.atEnd = .ok (.object members)) : IsGap rest := by
  rcases finished_or_number_of_atEnd might with ⟨frames, rfl⟩ | ⟨l, n, rfl, -⟩
  · exact (run_finished_eq_some_iff.mp reached).1
  · exact absurd ended (atEnd_ne_object_of_number reached members)

end State

/-! ## Texts -/

open State

variable {text more : List Char} {v : Value} {members : List (String × Value)}

theorem isGap_of_read_append (h : read text = .ok v)
    (longer : read (text ++ more) = .ok (.object members)) : IsGap more := by
  obtain ⟨s, reached, might⟩ := read_eq_ok_iff.mp h
  obtain ⟨t, further, ended⟩ := read_eq_ok_iff.mp longer
  rw [run_append_of_run reached] at further
  exact isGap_of_atEnd might further ended

/-- **After an object only a gap may stand**, and it changes nothing. -/
theorem read_append_of_object (h : read text = .ok (.object members)) :
    read (text ++ more) = .ok v ↔ IsGap more ∧ v = .object members := by
  obtain ⟨s, reached, ended⟩ := read_eq_ok_iff.mp h
  obtain ⟨frames, rfl⟩ : ∃ frames, s = ⟨frames, .pause (.finished (.object members))⟩ := by
    rcases finished_or_number_of_atEnd ended with finished | ⟨-, n, -, same⟩
    · exact finished
    · cases same
  rw [read_eq_ok_iff]
  simp only [run_append_of_run reached, run_finished_eq_some_iff]
  constructor
  · rintro ⟨t, ⟨gap, rfl⟩, value⟩
    cases value
    exact ⟨gap, rfl⟩
  · rintro ⟨gap, rfl⟩
    exact ⟨_, ⟨gap, rfl⟩, rfl⟩

end LatencyLog.Json
