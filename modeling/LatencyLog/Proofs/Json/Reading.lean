import LatencyLog.Json.Reader
import LatencyLog.Proofs.Json.Numeral
import LatencyLog.Proofs.Json.Quotation

/-! # Runs of the reading machine

* `Json.State.run`: the state after several characters.
* `Json.read_eq_ok_iff`: a text has a value just if its run comes to a state that may end in it.
* `Json.State.Settles`: a state that goes on like another one, after any character that does not
  continue a number. A number settles to its end.
* `Json.State.Awaits`: a state from which a value may begin.
-/

namespace LatencyLog.Json

set_option autoImplicit false

namespace State

/-! ## Runs -/

/-- The state after characters without fault. -/
def run (s : State) (cs : List Char) : Option State := cs.foldlM (fun t c => (t.step c).toOption) s

theorem run_cons {s next : State} {c : Char} (h : s.step c = .ok next) (rest : List Char) :
    s.run (c :: rest) = next.run rest := by
  rw [run, List.foldlM_cons, h]
  rfl

theorem run_cons_of_error {s : State} {c : Char} {halt : Halt} (h : s.step c = .error halt)
    (rest : List Char) : s.run (c :: rest) = none := by
  rw [run, List.foldlM_cons, h]
  rfl

theorem run_cons_congr {s t : State} {c : Char} (h : s.step c = t.step c) (rest : List Char) :
    s.run (c :: rest) = t.run (c :: rest) := by
  rw [run, run, List.foldlM_cons, List.foldlM_cons, h]

theorem run_append (s : State) (before after : List Char) :
    s.run (before ++ after) = (s.run before).bind fun t => t.run after :=
  List.foldlM_append

theorem run_append_of_run {s t : State} {before : List Char} (h : s.run before = some t)
    (after : List Char) : s.run (before ++ after) = t.run after := by
  rw [run_append, h, Option.bind_some]

end State

theorem readFrom_eq_ok_iff {place : Place} {s : State} {text : List Char} {v : Value} :
    readFrom place s text = .ok v ↔ ∃ t, s.run text = some t ∧ t.atEnd = .ok v := by
  induction text generalizing place s with
  | nil =>
    rw [readFrom]
    constructor
    · intro h
      cases atEnd : s.atEnd with
      | error cause =>
        rw [atEnd] at h
        cases h
      | ok w =>
        rw [atEnd] at h
        cases h
        exact ⟨s, rfl, atEnd⟩
    · rintro ⟨t, same, atEnd⟩
      cases same
      rw [atEnd]
  | cons c rest ih =>
    rw [readFrom]
    cases read : s.step c with
    | error halt =>
      rw [State.run_cons_of_error read]
      constructor
      · intro h
        cases h
      · rintro ⟨t, none, -⟩
        cases none
    | ok next =>
      rw [State.run_cons read]
      exact ih

/-- The value of a text is that of the state that its run comes to. -/
theorem read_eq_ok_iff {text : List Char} {v : Value} :
    read text = .ok v ↔ ∃ t, State.start.run text = some t ∧ t.atEnd = .ok v :=
  readFrom_eq_ok_iff

namespace State

/-! ## Runs within a token -/

variable {frames : List Frame}

theorem run_word {v : Value} (next : Char) (rest : List Char) :
    (State.mk frames (.word v next rest)).run (next :: rest) =
      some (paused (complete frames v)) := by
  induction rest generalizing next with
  | nil =>
    refine run_cons ?_ []
    simp only [step, stepWord, ne_eq, not_true_eq_false, if_false]
  | cons following rest ih =>
    have read : (State.mk frames (.word v next (following :: rest))).step next =
        .ok ⟨frames, .word v following rest⟩ := by
      simp only [step, stepWord, ne_eq, not_true_eq_false, if_false]
    rw [run_cons read, ih]

/-- A machine for tokens that the phases of states hold runs within these states. -/
theorem run_of_foldlM {α : Type} {advance : α → Char → Option α} (hold : α → State)
    (h : ∀ a b c, advance a c = some b → (hold a).step c = .ok (hold b)) {a b : α}
    {cs : List Char} (reached : cs.foldlM advance a = some b) :
    (hold a).run cs = some (hold b) := by
  induction cs generalizing a with
  | nil =>
    cases reached
    rfl
  | cons c rest ih =>
    obtain ⟨next, first, later⟩ := Option.bind_eq_some_iff.mp reached
    rw [run_cons (h a next c first)]
    exact ih later

theorem run_text {q r : Quoted} {cs : List Char} (h : q.run cs = some r) :
    (State.mk frames (.text q)).run cs = some ⟨frames, .text r⟩ := by
  refine run_of_foldlM (fun q => ⟨frames, .text q⟩) (fun a b c next => ?_) h
  simp only [step, Quoted.step_eq_of_advance? next]

theorem run_key {members : List (String × Value)} {q r : Quoted} {cs : List Char}
    (h : q.run cs = some r) :
    (State.mk frames (.key members q)).run cs = some ⟨frames, .key members r⟩ := by
  refine run_of_foldlM (fun q => ⟨frames, .key members q⟩) (fun a b c next => ?_) h
  simp only [step, Quoted.step_eq_of_advance? next]

theorem run_number {l m : Literal} {cs : List Char} (h : l.run cs = some m) :
    (State.mk frames (.number l)).run cs = some ⟨frames, .number m⟩ := by
  refine run_of_foldlM (fun l => ⟨frames, .number l⟩) (fun a b c next => ?_) h
  simp only [step, stepNumber, Literal.step_eq_of_advance? next]

/-! ## Ends of values -/

-- A number has no last character of its own: its state becomes that of a value that has ended only
-- with the character after it. So the ends of values are compared by what comes next.

/-- The first state goes on like the second after any character that does not continue a number,
and at the end of the text. -/
structure Settles (s t : State) : Prop where
  step_eq : ∀ c, Literal.continues c = false → s.step c = t.step c
  atEnd_eq : s.atEnd = t.atEnd

theorem Settles.refl (s : State) : Settles s s := ⟨fun _ _ => rfl, rfl⟩

theorem Settles.run_cons {s t : State} (h : Settles s t) {c : Char}
    (other : Literal.continues c = false) (rest : List Char) :
    s.run (c :: rest) = t.run (c :: rest) :=
  run_cons_congr (h.step_eq c other) rest

theorem settles_number {l : Literal} {x : Number} (whole : Literal.canEnd l.part = true)
    (number : l.number = .ok x) :
    Settles ⟨frames, .number l⟩ (paused (complete frames (.number x))) where
  step_eq c other := by
    simp only [step, stepNumber, Literal.step_of_not_continues whole other, number, paused]
  atEnd_eq := by simp only [atEnd, number, paused]

theorem continues_of_isSpace {c : Char} (h : isSpace c = true) : Literal.continues c = false := by
  simp only [isSpace, Bool.or_eq_true, beq_iff_eq] at h
  rcases h with ((h | h) | h) | h <;> rw [h] <;> decide

/-- The characters may stand between tokens. -/
def IsGap (cs : List Char) : Prop := ∀ c ∈ cs, isSpace c = true

theorem run_gap {s : State} (h : ∀ c, isSpace c = true → s.step c = .ok s) {gap : List Char}
    (spaces : IsGap gap) : s.run gap = some s := by
  induction gap with
  | nil => rfl
  | cons c rest ih =>
    rw [State.run_cons (h c (spaces c List.mem_cons_self))]
    exact ih fun d later => spaces d (List.mem_cons_of_mem c later)

theorem step_pause_of_isSpace (place : Pause) (c : Char) (h : isSpace c = true) :
    (State.mk frames (.pause place)).step c = .ok ⟨frames, .pause place⟩ := by
  simp only [step, stepPause, h, if_true]

/-- A gap after a value leaves the machine where the value ended. -/
theorem Settles.run_gap {s : State} {place : Pause} (h : Settles s ⟨frames, .pause place⟩)
    {gap : List Char} (spaces : IsGap gap) :
    ∃ t, s.run gap = some t ∧ Settles t ⟨frames, .pause place⟩ := by
  cases gap with
  | nil => exact ⟨s, rfl, h⟩
  | cons c rest =>
    refine ⟨_, ?_, Settles.refl _⟩
    rw [h.run_cons (continues_of_isSpace (spaces c List.mem_cons_self))]
    exact State.run_gap (step_pause_of_isSpace place) spaces

/-! ## Beginnings of values -/

/-- A value may begin in the state, within the frames. -/
structure Awaits (s : State) (frames : List Frame) : Prop where
  space : ∀ c, isSpace c = true → s.step c = .ok s
  first : ∀ c, isSpace c = false → c ≠ ']' → s.step c = beginValue frames c

theorem awaits_value : Awaits ⟨frames, .value⟩ frames where
  space c h := by simp only [step, h, if_true]
  first c h _ := by simp only [step, h, Bool.false_eq_true, if_false]

theorem awaits_firstItem : Awaits ⟨frames, .firstItem⟩ (.list [] :: frames) where
  space c h := by simp only [step, h, if_true]
  first c h notClosing := by
    simp only [step, h, Bool.false_eq_true, if_false, if_neg notClosing]

theorem awaits_nextItem {items : List Value} :
    Awaits ⟨frames, .nextItem items⟩ (.list items :: frames) where
  space c h := by simp only [step, h, if_true]
  first c h notClosing := by
    simp only [step, h, Bool.false_eq_true, if_false, if_neg notClosing]

/-- A key may begin in the state, after the members of an object within the frames. -/
structure AwaitsKey (s : State) (frames : List Frame) (members : List (String × Value)) : Prop where
  space : ∀ c, isSpace c = true → s.step c = .ok s
  quote : s.step '"' = .ok ⟨frames, .key members Quoted.start⟩

theorem awaitsKey_firstKey : AwaitsKey ⟨frames, .firstKey⟩ frames [] where
  space c h := by simp only [step, h, if_true]
  quote := rfl

theorem awaitsKey_nextKey {members : List (String × Value)} :
    AwaitsKey ⟨frames, .nextKey members⟩ frames members where
  space c h := by simp only [step, h, if_true]
  quote := rfl

end State

end LatencyLog.Json
