import LatencyLog.Proofs.Json.Begun.Numeral
import LatencyLog.Proofs.Json.Begun.Quotation
import LatencyLog.Proofs.Json.Spelling

/-! # JSON texts begun

What the characters read so far are, given the state that the reading machine has come to. The
converse of `read_of_spells`: the machine accepts nothing but spellings of values.

* `Json.Opened`: the characters up to where a value or a key is due, within lists and objects that
  are still open.
* `Json.State.Holds`: these characters, and what has been read of the value or key since.
* `Json.State.holds_step`: one more character keeps this; `holds_run` keeps it over a run.
* `Json.read_eq_ok_iff_spells`: a text is read as a value just if it spells it.
-/

namespace LatencyLog.Json

set_option autoImplicit false

open Text State

/-! ## What is open -/

/-- What is due: a value within frames, or a key after the members of an object within frames. -/
inductive Due where
  | value (frames : List Frame)
  | key (frames : List Frame) (members : List (String × Value))

/-- How many lists and objects may be opened within frames. -/
def room (frames : List Frame) : Nat := maxDepth - frames.length

inductive Opened : Due → List Char → Prop where
  | top : Opened (.value []) []
  | list {frames : List Frame} {before gap : List Char} (h : Opened (.value frames) before)
      (hgap : IsGap gap) (depth : frames.length < maxDepth) :
      Opened (.value (.list [] :: frames)) (before ++ gap ++ ['['])
  | comma {frames : List Frame} {items : List Value} {v : Value} {before cs : List Char}
      (h : Opened (.value (.list items :: frames)) before)
      (hv : Spells (room (.list items :: frames)) (.item v) cs) :
      Opened (.value (.list (v :: items) :: frames)) (before ++ cs ++ [','])
  | object {frames : List Frame} {before gap : List Char} (h : Opened (.value frames) before)
      (hgap : IsGap gap) (depth : frames.length < maxDepth) :
      Opened (.key frames []) (before ++ gap ++ ['\x7b'])
  | colon {frames : List Frame} {members : List (String × Value)} {name : String}
      {before gap key after : List Char} (h : Opened (.key frames members) before)
      (hgap : IsGap gap) (hkey : SpellsText name key) (hafter : IsGap after) :
      Opened (.value (.member members name :: frames)) (before ++ gap ++ key ++ after ++ [':'])
  | commaMember {frames : List Frame} {members : List (String × Value)} {name : String}
      {v : Value} {before cs : List Char}
      (h : Opened (.value (.member members name :: frames)) before)
      (hv : Spells (room (.member members name :: frames)) (.item v) cs) :
      Opened (.key frames ((name, v) :: members)) (before ++ cs ++ [','])

variable {frames : List Frame} {before gap cs : List Char} {c : Char}

theorem room_eq_succ (depth : frames.length < maxDepth) (f : Frame) :
    room frames = room (f :: frames) + 1 := by
  unfold room
  rw [List.length_cons]
  omega

/-- An open list: what stands before its bracket, and items that any more items complete. -/
theorem opened_list {items : List Value}
    (h : Opened (.value (.list items :: frames)) before) :
    ∃ outer gap inner, Opened (.value frames) outer ∧ IsGap gap ∧ frames.length < maxDepth ∧
      before = outer ++ gap ++ '[' :: inner ∧
      ∀ vs rest, Spells (room (.list [] :: frames)) (.items vs) rest →
        Spells (room (.list [] :: frames)) (.items (items.reverse ++ vs)) (inner ++ rest) := by
  induction items generalizing before with
  | nil =>
    cases h with
    | @list _ outer gap h hgap depth =>
      refine ⟨outer, gap, [], h, hgap, depth, rfl, ?_⟩
      intro vs rest spelled
      exact spelled
  | cons v items ih =>
    cases h with
    | @comma _ _ _ earlier cs h hv =>
      obtain ⟨outer, gap, inner, opened, hgap, depth, rfl, joins⟩ := ih h
      refine ⟨outer, gap, inner ++ cs ++ [','], opened, hgap, depth, by simp, ?_⟩
      intro vs rest spelled
      have joined := joins (v :: vs) (cs ++ ',' :: rest) (.moreItems hv spelled)
      simpa using joined

/-- An open object: what stands before its brace, and members that any more members complete. -/
theorem opened_object {members : List (String × Value)}
    (h : Opened (.key frames members) before) :
    ∃ outer gap inner, Opened (.value frames) outer ∧ IsGap gap ∧ frames.length < maxDepth ∧
      before = outer ++ gap ++ '\x7b' :: inner ∧
      ∀ ms rest, Spells (room (.list [] :: frames)) (.members ms) rest →
        Spells (room (.list [] :: frames)) (.members (members.reverse ++ ms)) (inner ++ rest) := by
  induction members generalizing before with
  | nil =>
    cases h with
    | @object _ outer gap h hgap depth =>
      refine ⟨outer, gap, [], h, hgap, depth, rfl, ?_⟩
      intro ms rest spelled
      exact spelled
  | cons m members ih =>
    cases h with
    | @commaMember _ _ name v _ cs h hv =>
      cases h with
      | @colon _ _ _ earlier gapBefore key after h hgapBefore hkey hafter =>
        obtain ⟨outer, gap, inner, opened, hgap, depth, rfl, joins⟩ := ih h
        have member : Spells (room (.list [] :: frames)) (.member name v) _ :=
          .member hgapBefore hkey hafter hv
        refine ⟨outer, gap, inner ++ (gapBefore ++ key ++ after ++ ':' :: cs) ++ [','], opened,
          hgap, depth, by simp, ?_⟩
        intro ms rest spelled
        have joined := joins ((name, v) :: ms) _ (.moreMembers member spelled)
        simpa using joined

/-! ## States -/

namespace State

inductive Holds : State → List Char → Prop where
  | value {frames : List Frame} {before gap : List Char} (h : Opened (.value frames) before)
      (hgap : IsGap gap) : Holds ⟨frames, .value⟩ (before ++ gap)
  | firstItem {frames : List Frame} {before gap : List Char}
      (h : Opened (.value (.list [] :: frames)) before) (hgap : IsGap gap) :
      Holds ⟨frames, .firstItem⟩ (before ++ gap)
  | nextItem {frames : List Frame} {items : List Value} {before gap : List Char}
      (h : Opened (.value (.list items :: frames)) before) (hgap : IsGap gap) :
      Holds ⟨frames, .nextItem items⟩ (before ++ gap)
  | firstKey {frames : List Frame} {before gap : List Char} (h : Opened (.key frames []) before)
      (hgap : IsGap gap) : Holds ⟨frames, .firstKey⟩ (before ++ gap)
  | nextKey {frames : List Frame} {members : List (String × Value)} {before gap : List Char}
      (h : Opened (.key frames members) before) (hgap : IsGap gap) :
      Holds ⟨frames, .nextKey members⟩ (before ++ gap)
  | key {frames : List Frame} {members : List (String × Value)} {q : Quoted}
      {before gap inner : List Char} (h : Opened (.key frames members) before)
      (hgap : IsGap gap) (hq : q.Holds inner) :
      Holds ⟨frames, .key members q⟩ (before ++ gap ++ '"' :: inner)
  | colon {frames : List Frame} {members : List (String × Value)} {name : String}
      {before gap key after : List Char} (h : Opened (.key frames members) before)
      (hgap : IsGap gap) (hkey : SpellsText name key) (hafter : IsGap after) :
      Holds ⟨frames, .colon members name⟩ (before ++ gap ++ key ++ after)
  | word {frames : List Frame} {v : Value} {next : Char} {before gap read rest : List Char}
      (h : Opened (.value frames) before) (hgap : IsGap gap)
      (hv : ∀ room, Spells room (.value v) (read ++ next :: rest)) :
      Holds ⟨frames, .word v next rest⟩ (before ++ gap ++ read)
  | text {frames : List Frame} {q : Quoted} {before gap inner : List Char}
      (h : Opened (.value frames) before) (hgap : IsGap gap) (hq : q.Holds inner) :
      Holds ⟨frames, .text q⟩ (before ++ gap ++ '"' :: inner)
  | number {frames : List Frame} {l : Literal} {before gap cs : List Char}
      (h : Opened (.value frames) before) (hgap : IsGap gap) (hl : l.Holds cs) :
      Holds ⟨frames, .number l⟩ (before ++ gap ++ cs)
  | finished {v : Value} {cs : List Char} (hv : Spells maxDepth (.item v) cs) :
      Holds ⟨[], .pause (.finished v)⟩ cs
  | item {frames : List Frame} {items : List Value} {v : Value} {before cs : List Char}
      (h : Opened (.value (.list items :: frames)) before)
      (hv : Spells (room (.list items :: frames)) (.item v) cs) :
      Holds ⟨frames, .pause (.item (v :: items))⟩ (before ++ cs)
  | member {frames : List Frame} {members : List (String × Value)} {name : String} {v : Value}
      {before cs : List Char} (h : Opened (.value (.member members name :: frames)) before)
      (hv : Spells (room (.member members name :: frames)) (.item v) cs) :
      Holds ⟨frames, .pause (.member ((name, v) :: members))⟩ (before ++ cs)

theorem holds_start : start.Holds [] := .value .top (List.forall_mem_nil _)

theorem IsGap.snoc (h : IsGap gap) (space : isSpace c = true) : IsGap (gap ++ [c]) :=
  List.forall_mem_append.mpr ⟨h, List.forall_mem_singleton.mpr space⟩

theorem isGap_nil : IsGap [] := List.forall_mem_nil _

/-- A gap may follow an item at any length. -/
theorem spells_item_snoc {n : Nat} {v : Value} (h : Spells n (.item v) cs)
    (space : isSpace c = true) : Spells n (.item v) (cs ++ [c]) := by
  cases h with
  | @item _ _ before inner after hbefore h hafter =>
    rw [List.append_assoc]
    exact .item hbefore h (hafter.snoc space)

/-! ## Ends of values -/

theorem holds_complete {v : Value} (h : Opened (.value frames) before) (hgap : IsGap gap)
    (hv : Spells (room frames) (.value v) cs) :
    (paused (complete frames v)).Holds (before ++ (gap ++ cs)) := by
  have item : Spells (room frames) (.item v) (gap ++ cs) := by
    have padded := Spells.item hgap hv isGap_nil
    rwa [List.append_nil] at padded
  cases frames with
  | nil =>
    cases h
    exact .finished item
  | cons f frames =>
    cases f with
    | list items => exact .item h item
    | member members name => exact .member h item

theorem holds_closedList {items : List Value} {v : Value}
    (h : Opened (.value (.list items :: frames)) before)
    (hv : Spells (room (.list items :: frames)) (.item v) cs) :
    (paused (complete frames (.list (v :: items).reverse))).Holds (before ++ cs ++ [']']) := by
  obtain ⟨outer, gap, inner, opened, hgap, depth, rfl, joins⟩ := opened_list h
  have whole := Spells.list (joins [v] cs (.lastItem hv))
  rw [← room_eq_succ depth, ← List.reverse_cons] at whole
  have closed := holds_complete opened hgap whole
  simpa using closed

theorem holds_closedObject {members : List (String × Value)} {name : String} {v : Value}
    (h : Opened (.value (.member members name :: frames)) before)
    (hv : Spells (room (.member members name :: frames)) (.item v) cs) :
    (paused (complete frames (.object ((name, v) :: members).reverse))).Holds
      (before ++ cs ++ ['\x7d']) := by
  cases h with
  | @colon _ _ _ earlier gapBefore key after h hgapBefore hkey hafter =>
    obtain ⟨outer, gap, inner, opened, hgap, depth, rfl, joins⟩ := opened_object h
    have member : Spells (room (.list [] :: frames)) (.member name v) _ :=
      .member hgapBefore hkey hafter hv
    have whole := Spells.object (joins [(name, v)] _ (.lastMember member))
    rw [← room_eq_succ depth, ← List.reverse_cons] at whole
    have closed := holds_complete opened hgap whole
    simpa using closed

theorem holds_emptyList (h : Opened (.value (.list [] :: frames)) before) (hgap : IsGap gap) :
    (paused (complete frames (.list []))).Holds (before ++ gap ++ [']']) := by
  cases h with
  | @list _ outer gapBefore h hgapBefore depth =>
    have whole := Spells.noItems (room (.list [] :: frames)) hgap
    rw [← room_eq_succ depth] at whole
    have closed := holds_complete h hgapBefore whole
    simpa using closed

theorem holds_emptyObject (h : Opened (.key frames []) before) (hgap : IsGap gap) :
    (paused (complete frames (.object []))).Holds (before ++ gap ++ ['\x7d']) := by
  cases h with
  | @object _ outer gapBefore h hgapBefore depth =>
    have whole := Spells.noMembers (room (.list [] :: frames)) hgap
    rw [← room_eq_succ depth] at whole
    have closed := holds_complete h hgapBefore whole
    simpa using closed

/-! ## One more character -/

variable {next : State}

theorem holds_beginValue (h : Opened (.value frames) before) (hgap : IsGap gap)
    (read : beginValue frames c = .ok next) : next.Holds (before ++ gap ++ [c]) := by
  unfold beginValue at read
  split_ifs at read with isN isT isF isQuote isMinus isBracket deep isBrace deep
  · cases read
    subst isN
    exact .word h hgap fun room => .null room
  · cases read
    subst isT
    exact .word h hgap fun room => .true room
  · cases read
    subst isF
    exact .word h hgap fun room => .false room
  · cases read
    subst isQuote
    exact .text h hgap Quoted.holds_start
  · cases read
    subst isMinus
    exact .number h hgap .minus
  · cases read
    subst isBracket
    have opened := Holds.firstItem (.list h hgap (Nat.not_le.mp deep)) isGap_nil
    rwa [List.append_nil] at opened
  · cases read
    subst isBrace
    have opened := Holds.firstKey (.object h hgap (Nat.not_le.mp deep)) isGap_nil
    rwa [List.append_nil] at opened
  · cases digit : digit? c with
    | none =>
      rw [digit] at read
      cases read
    | some n =>
      obtain ⟨d, rfl, rfl⟩ := exists_digitChar_of_digit? digit
      rw [digit] at read
      cases read
      exact .number h hgap (Literal.holds_firstDigit false d)

theorem holds_beginKey {members : List (String × Value)} (h : Opened (.key frames members) before)
    (hgap : IsGap gap) (read : beginKey frames members c = .ok next) :
    next.Holds (before ++ gap ++ [c]) := by
  unfold beginKey at read
  split_ifs at read with isQuote
  cases read
  subst isQuote
  exact .key h hgap Quoted.holds_start

theorem holds_stepPause {place : Pause} (h : Holds ⟨frames, .pause place⟩ cs)
    (read : stepPause frames place c = .ok next) : next.Holds (cs ++ [c]) := by
  unfold stepPause at read
  by_cases space : isSpace c = true
  · rw [if_pos space] at read
    cases read
    cases h with
    | finished hv => exact .finished (spells_item_snoc hv space)
    | item h hv =>
      rw [List.append_assoc]
      exact .item h (spells_item_snoc hv space)
    | member h hv =>
      rw [List.append_assoc]
      exact .member h (spells_item_snoc hv space)
  · rw [if_neg space] at read
    cases h with
    | finished hv => cases read
    | item h hv =>
      simp only at read
      split_ifs at read with closing comma
      · cases read
        subst closing
        exact holds_closedList h hv
      · cases read
        subst comma
        have opened := Holds.nextItem (.comma h hv) isGap_nil
        rwa [List.append_nil] at opened
    | member h hv =>
      simp only at read
      split_ifs at read with closing comma
      · cases read
        subst closing
        exact holds_closedObject h hv
      · cases read
        subst comma
        have opened := Holds.nextKey (.commaMember h hv) isGap_nil
        rwa [List.append_nil] at opened

theorem holds_stepNumber {l : Literal} (h : Opened (.value frames) before) (hgap : IsGap gap)
    (hl : l.Holds cs) (read : stepNumber frames l c = .ok next) :
    next.Holds (before ++ gap ++ cs ++ [c]) := by
  unfold stepNumber at read
  cases advance : l.step c with
  | error halt =>
    rw [advance] at read
    cases read
  | ok more =>
    rw [advance] at read
    cases more with
    | some m =>
      cases read
      have longer := Holds.number h hgap (Literal.holds_step hl advance)
      rwa [← List.append_assoc] at longer
    | none =>
      -- The character after a number ends it and is then read as one after a value.
      cases number : l.number with
      | error cause =>
        rw [number] at read
        cases read
      | ok x =>
        rw [number] at read
        obtain ⟨n, rfl, denoted⟩ := Literal.exists_numeral hl number
        have ended := holds_complete h hgap (.number (room frames) denoted)
        rw [← List.append_assoc] at ended
        exact holds_stepPause ended read

theorem holds_stepWord {v : Value} {following : Char} {done rest : List Char}
    (h : Opened (.value frames) before) (hgap : IsGap gap)
    (hv : ∀ room, Spells room (.value v) (done ++ following :: rest))
    (read : stepWord frames v following rest c = .ok next) :
    next.Holds (before ++ gap ++ done ++ [c]) := by
  unfold stepWord at read
  split_ifs at read with same
  have expected : c = following := not_not.mp same
  subst expected
  cases rest with
  | nil =>
    cases read
    have ended := holds_complete h hgap (hv (room frames))
    simpa using ended
  | cons following rest =>
    cases read
    rw [List.append_assoc]
    refine .word h hgap fun room => ?_
    rw [List.append_assoc]
    exact hv room

theorem spellsText_of_closed {q : Quoted} {inner : List Char} {text : String} (hq : q.Holds inner)
    (read : q.step c = .ok (.closed text)) : SpellsText text ('"' :: inner ++ [c]) := by
  obtain ⟨rfl, spelled⟩ := Quoted.spellsCharacters_of_closed hq read
  exact ⟨inner, spelled, rfl⟩

theorem holds_stepKey {members : List (String × Value)} {q : Quoted} {inner : List Char}
    (h : Opened (.key frames members) before) (hgap : IsGap gap) (hq : q.Holds inner)
    (read : (State.mk frames (.key members q)).step c = .ok next) :
    next.Holds (before ++ gap ++ '"' :: inner ++ [c]) := by
  simp only [step] at read
  cases advance : q.step c with
  | error halt =>
    rw [advance] at read
    cases read
  | ok progress =>
    rw [advance] at read
    cases progress with
    | pending q =>
      cases read
      rw [List.append_assoc, List.cons_append]
      exact .key h hgap (Quoted.holds_step hq advance)
    | closed name =>
      cases read
      have ended := Holds.colon h hgap (spellsText_of_closed hq advance) isGap_nil
      rwa [List.append_nil, ← List.append_assoc] at ended

theorem holds_stepText {q : Quoted} {inner : List Char} (h : Opened (.value frames) before)
    (hgap : IsGap gap) (hq : q.Holds inner)
    (read : (State.mk frames (.text q)).step c = .ok next) :
    next.Holds (before ++ gap ++ '"' :: inner ++ [c]) := by
  simp only [step] at read
  cases advance : q.step c with
  | error halt =>
    rw [advance] at read
    cases read
  | ok progress =>
    rw [advance] at read
    cases progress with
    | pending q =>
      cases read
      rw [List.append_assoc, List.cons_append]
      exact .text h hgap (Quoted.holds_step hq advance)
    | closed text =>
      cases read
      have ended := holds_complete h hgap (.text (room frames) (spellsText_of_closed hq advance))
      simpa using ended

/-- **One more character keeps what the state holds.** -/
theorem holds_step {s : State} (h : s.Holds cs) (read : s.step c = .ok next) :
    next.Holds (cs ++ [c]) := by
  cases h with
  | value h hgap =>
    simp only [step] at read
    split_ifs at read with space
    · cases read
      rw [List.append_assoc]
      exact .value h (hgap.snoc space)
    · exact holds_beginValue h hgap read
  | firstItem h hgap =>
    simp only [step] at read
    split_ifs at read with space closing
    · cases read
      rw [List.append_assoc]
      exact .firstItem h (hgap.snoc space)
    · cases read
      subst closing
      exact holds_emptyList h hgap
    · exact holds_beginValue h hgap read
  | nextItem h hgap =>
    simp only [step] at read
    split_ifs at read with space closing
    · cases read
      rw [List.append_assoc]
      exact .nextItem h (hgap.snoc space)
    · exact holds_beginValue h hgap read
  | firstKey h hgap =>
    simp only [step] at read
    split_ifs at read with space closing
    · cases read
      rw [List.append_assoc]
      exact .firstKey h (hgap.snoc space)
    · cases read
      subst closing
      exact holds_emptyObject h hgap
    · exact holds_beginKey h hgap read
  | nextKey h hgap =>
    simp only [step] at read
    split_ifs at read with space closing
    · cases read
      rw [List.append_assoc]
      exact .nextKey h (hgap.snoc space)
    · exact holds_beginKey h hgap read
  | key h hgap hq => exact holds_stepKey h hgap hq read
  | colon h hgap hkey hafter =>
    simp only [step] at read
    split_ifs at read with space colon
    · cases read
      rw [List.append_assoc]
      exact .colon h hgap hkey (hafter.snoc space)
    · cases read
      subst colon
      have opened := Holds.value (.colon h hgap hkey hafter) isGap_nil
      rwa [List.append_nil] at opened
  | word h hgap hv => exact holds_stepWord h hgap hv read
  | text h hgap hq => exact holds_stepText h hgap hq read
  | number h hgap hl => exact holds_stepNumber h hgap hl read
  | finished hv => exact holds_stepPause (.finished hv) read
  | item h hv => exact holds_stepPause (.item h hv) read
  | member h hv => exact holds_stepPause (.member h hv) read

theorem holds_run {s t : State} (h : s.Holds before) (reached : s.run cs = some t) :
    t.Holds (before ++ cs) := by
  induction cs generalizing s before with
  | nil =>
    cases reached
    rwa [List.append_nil]
  | cons c rest ih =>
    cases read : s.step c with
    | error halt =>
      rw [run_cons_of_error read] at reached
      cases reached
    | ok next =>
      rw [run_cons read] at reached
      have more := ih (holds_step h read) reached
      rwa [List.append_assoc] at more

/-! ## The end of a text -/

theorem spells_of_pauseAtEnd {place : Pause} {v : Value} (h : Holds ⟨frames, .pause place⟩ cs)
    (ended : pauseAtEnd place = .ok v) : Spells maxDepth (.item v) cs := by
  cases h with
  | finished hv =>
    cases ended
    exact hv
  | item => cases ended
  | member => cases ended

theorem spells_of_atEnd {s : State} {v : Value} (h : s.Holds cs) (ended : s.atEnd = .ok v) :
    Spells maxDepth (.item v) cs := by
  cases h with
  | number h hgap hl =>
    rename_i frames l before gap cs
    simp only [atEnd] at ended
    cases number : l.number with
    | error cause =>
      rw [number] at ended
      cases ended
    | ok x =>
      rw [number] at ended
      obtain ⟨n, rfl, denoted⟩ := Literal.exists_numeral hl number
      have complete := holds_complete h hgap (.number (room frames) denoted)
      rw [← List.append_assoc] at complete
      exact spells_of_pauseAtEnd complete ended
  | finished hv => exact spells_of_pauseAtEnd (.finished hv) ended
  | item h hv => exact spells_of_pauseAtEnd (.item h hv) ended
  | member h hv => exact spells_of_pauseAtEnd (.member h hv) ended
  | value => cases ended
  | firstItem => cases ended
  | nextItem => cases ended
  | firstKey => cases ended
  | nextKey => cases ended
  | key => cases ended
  | colon => cases ended
  | word => cases ended
  | text => cases ended

end State

/-- **A text is read as a value just if it spells this value.** -/
theorem read_eq_ok_iff_spells {text : List Char} {v : Value} :
    read text = .ok v ↔ Spells maxDepth (.item v) text := by
  constructor
  · intro h
    obtain ⟨t, reached, ended⟩ := read_eq_ok_iff.mp h
    exact spells_of_atEnd (holds_run holds_start reached) ended
  · exact read_of_spells

end LatencyLog.Json
