import LatencyLog.Proofs.Json.Grammar

/-! # Derivations of texts that are read

A text is read only along its derivation: whatever derivation tree a text has that the machine reads
to its end, the tree keeps the limits.

* `Json.State.Accepts`: the machine reads the rest of a text to its end.
* `Json.State.Carries.paired_of_accepts`: surrogates that are read stand in pairs.
* `Json.State.number?_of_accepts`: numerals that are read are in range.
* `Json.State.limits`: what is read of a tree keeps the limits, wherever the tree stands.
* `Json.within_of_read`: trees of texts that are read keep the limits.
-/

namespace LatencyLog.Json

set_option autoImplicit false

open Text

namespace State

/-! ## Rests of texts -/

/-- The machine reads the characters and may end after them. -/
def Accepts (s : State) (cs : List Char) : Prop := ∃ t v, s.run cs = some t ∧ t.atEnd = .ok v

variable {s t : State} {c : Char} {rest : List Char}

theorem accepts_cons_iff (h : s.step c = .ok t) : Accepts s (c :: rest) ↔ Accepts t rest := by
  rw [Accepts, run_cons h]
  rfl

theorem not_accepts_of_error {halt : Halt} (h : s.step c = .error halt) :
    ¬Accepts s (c :: rest) := by
  rintro ⟨u, v, reached, -⟩
  rw [run_cons_of_error h] at reached
  cases reached

theorem accepts_append_iff {before : List Char} (h : s.run before = some t) :
    Accepts s (before ++ rest) ↔ Accepts t rest := by
  rw [Accepts, run_append_of_run h]
  rfl

/-- No character of a number begins the rest of a text. -/
def Stops (rest : List Char) : Prop := ∀ c ∈ rest.head?, Literal.continues c = false

theorem stops_cons (h : Literal.continues c = false) : Stops (c :: rest) := by
  rintro d same
  obtain rfl := Option.some.inj same
  exact h

theorem Settles.accepts_iff (h : Settles s t) (stops : Stops rest) :
    Accepts s rest ↔ Accepts t rest := by
  cases rest with
  | nil =>
    constructor
    · rintro ⟨u, v, same, ended⟩
      obtain rfl := Option.some.inj same
      exact ⟨t, v, rfl, h.atEnd_eq ▸ ended⟩
    · rintro ⟨u, v, same, ended⟩
      obtain rfl := Option.some.inj same
      exact ⟨s, v, rfl, h.atEnd_eq ▸ ended⟩
  | cons c rest => rw [Accepts, Accepts, h.run_cons (stops c rfl)]

theorem stops_gap_append {gap : List Char} (spaces : IsGap gap) (stops : Stops rest) :
    Stops (gap ++ rest) := by
  cases gap with
  | nil => exact stops
  | cons c gap => exact stops_cons (continues_of_isSpace (spaces c List.mem_cons_self))

/-! ## Quotations -/

/-- States that hold a quoted text begun and go on with it until it closes. -/
structure Carries (hold : Quoted → State) : Prop where
  pending : ∀ q c next, q.step c = .ok (.pending next) → (hold q).step c = .ok (hold next)
  refused : ∀ q c halt, q.step c = .error halt → (hold q).step c = .error halt

theorem carries_text (frames : List Frame) : Carries fun q => ⟨frames, .text q⟩ where
  pending q c next h := by simp only [step, h]
  refused q c halt h := by simp only [step, h]

theorem carries_key (frames : List Frame) (members : List (String × Value)) :
    Carries fun q => ⟨frames, .key members q⟩ where
  pending q c next h := by simp only [step, h]
  refused q c halt h := by simp only [step, h]

section

variable {hold : Quoted → State} {done : List Char} {high : Option Nat} {n : Nat}

theorem Carries.accepts_append_iff (carries : Carries hold) {q r : Quoted} {cs : List Char}
    (h : q.run cs = some r) : Accepts (hold q) (cs ++ rest) ↔ Accepts (hold r) rest :=
  State.accepts_append_iff (run_of_foldlM hold
    (fun _ _ _ next => carries.pending _ _ _ (Quoted.step_eq_of_advance? next)) h)

theorem Carries.accepts_group (carries : Carries hold) :
    Accepts (hold ⟨done, .absent⟩) ('\\' :: 'u' :: rest) ↔
      Accepts (hold ⟨done, .group none 0 (some 0)⟩) rest := by
  rw [accepts_cons_iff (carries.pending _ _ ⟨done, .begun⟩ rfl),
    accepts_cons_iff (carries.pending _ _ _ rfl)]

theorem Carries.not_accepts_code (carries : Carries hold) {cs : List Char} (h : SpellsCode n cs)
    {halt : Halt} (judged : Quoted.unit ⟨done, .absent⟩ high n = .error halt) :
    ¬Accepts (hold ⟨done, .group high 0 (some 0)⟩) (cs ++ rest) := by
  obtain ⟨ha, hb, hc, hd⟩ := h
  rw [List.cons_append, List.cons_append, List.cons_append, List.cons_append,
    accepts_cons_iff (carries.pending _ _ _ (Quoted.step_group ha (by omega))),
    accepts_cons_iff (carries.pending _ _ _ (Quoted.step_group hb (by omega))),
    accepts_cons_iff (carries.pending _ _ _ (Quoted.step_group hc (by omega)))]
  refine not_accepts_of_error (carries.refused _ _ halt ?_)
  rw [Quoted.step_groupEnd hd]
  simpa only [Nat.zero_mul, Nat.zero_add] using judged

/-- What is read from after a high surrogate on begins with a low one. -/
theorem Carries.exists_low (carries : Carries hold) {high : Nat} {g : Glyph}
    (h : Accepts (hold ⟨done, .lowBackslash high⟩) (g.text ++ rest)) :
    g.isLow = true ∧ ∃ c, Accepts (hold ⟨c :: done, .absent⟩) rest := by
  have begun : ∀ more, Accepts (hold ⟨done, .lowBackslash high⟩) ('\\' :: more) ↔
      Accepts (hold ⟨done, .lowLetter high⟩) more := fun more =>
    accepts_cons_iff (carries.pending _ _ _ rfl)
  cases g with
  | raw c plain =>
    simp only [isPlain, Bool.and_eq_true, bne_iff_ne] at plain
    refine absurd h (not_accepts_of_error (carries.refused _ _ ⟨.missingLowSurrogate, 1⟩ ?_))
    simp only [Quoted.step, if_neg plain.2]
  | short e known =>
    have other := (Quoted.escaped?_of_mem_shortEscapes e known).1
    rw [Glyph.text, List.cons_append, begun] at h
    refine absurd h (not_accepts_of_error (carries.refused _ _ ⟨.missingLowSurrogate, 1⟩ ?_))
    simp only [Quoted.step, if_neg other]
  | code a b c d =>
    obtain ⟨cs, text, spelled⟩ := spellsCode_of_code? (g := .code a b c d) rfl
    have letter : ∀ more, Accepts (hold ⟨done, .lowLetter high⟩) ('u' :: more) ↔
        Accepts (hold ⟨done, .group (some high) 0 (some 0)⟩) more := fun more =>
      accepts_cons_iff (carries.pending _ _ _ rfl)
    rw [text, List.cons_append, begun, List.cons_append, letter] at h
    rw [Glyph.isLow, Glyph.code?, Option.any_some]
    generalize ((a.digit.val * 16 + b.digit) * 16 + c.digit) * 16 + d.digit = n at spelled ⊢
    cases low : isLowSurrogate n with
    | true =>
      have judged : Quoted.unit ⟨done, .absent⟩ (some high) n =
          .ok (.pending ⟨surrogatePair high n :: done, .absent⟩) := by
        simp only [Quoted.unit, low, if_true, Quoted.push]
      exact ⟨rfl, _, (carries.accepts_append_iff (Quoted.run_code spelled judged)).mp h⟩
    | false =>
      have judged : Quoted.unit ⟨done, .absent⟩ (some high) n = .error ⟨.loneSurrogate, 1⟩ := by
        simp only [Quoted.unit, low, Bool.false_eq_true, if_false]
      exact absurd h (carries.not_accepts_code spelled judged)

/-- **Surrogates that are read stand in pairs.** -/
theorem Carries.paired_of_accepts (carries : Carries hold) {q : Quotation}
    (h : Accepts (hold ⟨done, .absent⟩) (q.flatMap Glyph.text ++ '"' :: rest)) : Paired q := by
  -- A pair takes two glyphs off, any other glyph one.
  induction length : q.length using Nat.strong_induction_on generalizing q done with
  | _ count ih =>
  cases q with
  | nil => exact .nil
  | cons g more =>
    rw [List.length_cons] at length
    rw [List.flatMap_cons, List.append_assoc] at h
    cases hhigh : g.isHigh with
    | false =>
      cases hlow : g.isLow with
      | true =>
        obtain ⟨n, code, low⟩ := code?_of_any hlow
        obtain ⟨cs, text, spelled⟩ := spellsCode_of_code? code
        have judged : Quoted.unit ⟨done, .absent⟩ none n = .error ⟨.loneSurrogate, 1⟩ := by
          simp only [Quoted.unit, low, if_true]
        rw [text, List.cons_append, List.cons_append, carries.accepts_group] at h
        exact absurd h (carries.not_accepts_code spelled judged)
      | false =>
        obtain ⟨c, spelled⟩ := exists_spellsCharacter_of_glyph hhigh hlow
        rw [carries.accepts_append_iff (Quoted.run_of_spellsCharacter spelled)] at h
        exact .other hhigh hlow (ih more.length (by omega) h rfl)
    | true =>
      obtain ⟨n, code, high⟩ := code?_of_any hhigh
      obtain ⟨cs, text, spelled⟩ := spellsCode_of_code? code
      rw [text, List.cons_append, List.cons_append, carries.accepts_group,
        carries.accepts_append_iff (Quoted.run_code spelled (Quoted.unit_of_high high))] at h
      cases more with
      | nil =>
        exact absurd h (not_accepts_of_error (carries.refused _ _ ⟨.missingLowSurrogate, 1⟩ rfl))
      | cons low more =>
        rw [List.length_cons] at length
        rw [List.flatMap_cons, List.append_assoc] at h
        obtain ⟨isLow, c, later⟩ := carries.exists_low h
        exact .pair hhigh isLow (ih more.length (by omega) later rfl)

end

/-! ## Numerals -/

section

variable {frames : List Frame} {n : Numeral} {l m : Literal}

theorem accepts_number_iff {cs : List Char} (h : l.run cs = some m) :
    Accepts ⟨frames, .number l⟩ (cs ++ rest) ↔ Accepts ⟨frames, .number m⟩ rest :=
  State.accepts_append_iff (run_number h)

/-- No digit ends a number: it goes on or it is refused. -/
theorem not_accepts_digits {digits : List (Fin 10)} (h : l.run (digits.map digitChar) = none) :
    ¬Accepts ⟨frames, .number l⟩ (digits.map digitChar ++ rest) := by
  induction digits generalizing l with
  | nil => cases h
  | cons d digits ih =>
    rw [List.map_cons] at h ⊢
    cases read : l.step (digitChar d) with
    | error halt =>
      have refused : (State.mk frames (.number l)).step (digitChar d) = .error halt := by
        simp only [step, stepNumber, read]
      exact not_accepts_of_error refused
    | ok next =>
      cases next with
      | none => exact absurd read (Literal.step_digitChar_ne l d)
      | some next =>
        rw [Literal.run_cons read] at h
        have moved : (State.mk frames (.number l)).step (digitChar d) =
            .ok ⟨frames, .number next⟩ := by
          simp only [step, stepNumber, read]
        rw [List.cons_append, accepts_cons_iff moved]
        exact ih h

theorem exists_literal_of_accepts
    (h : Accepts ⟨frames, .number (Literal.firstDigit n.negative n.lead)⟩ (n.tail ++ rest)) :
    ∃ l, n.literal? = some l ∧ Accepts ⟨frames, .number l⟩ rest := by
  rw [Numeral.tail, List.append_assoc, List.append_assoc,
    accepts_number_iff (Literal.run_wholeText n), accepts_number_iff (Literal.run_fractionText n)]
    at h
  cases reached : n.literal? with
  | some l =>
    rw [← Literal.run_powerText n] at reached
    exact ⟨l, rfl, (accepts_number_iff reached).mp h⟩
  | none =>
    rw [← Literal.run_powerText n, Numeral.powerText] at reached
    rw [Numeral.powerText] at h
    cases written : n.power with
    | none =>
      rw [written] at reached
      cases reached
    | some p =>
      rw [written] at reached h
      simp only [Power.text] at reached h
      obtain ⟨m, signed, same⟩ := Literal.exists_run_signText n p
      have marked : (n.reached n.mantissaPart).run (p.mark :: p.signText) = some m :=
        (Literal.run_cons (Literal.step_mark n p) _).trans signed
      rw [← List.cons_append, Literal.run_append, marked, Option.bind_some] at reached
      rw [← List.cons_append, List.append_assoc, accepts_number_iff marked] at h
      exact absurd h (not_accepts_digits reached)

theorem exists_number_of_accepts (whole : Literal.canEnd l.part = true) (stops : Stops rest)
    (h : Accepts ⟨frames, .number l⟩ rest) : ∃ x, l.number = .ok x := by
  cases number : l.number with
  | ok x => exact ⟨x, rfl⟩
  | error cause =>
    cases rest with
    | nil =>
      obtain ⟨t, v, same, ended⟩ := h
      obtain rfl := Option.some.inj same
      simp only [atEnd, number] at ended
      cases ended
    | cons c rest =>
      have refused : (State.mk frames (.number l)).step c = .error ⟨cause, 0⟩ := by
        simp only [step, stepNumber, Literal.step_of_not_continues whole (stops c rfl), number]
      exact absurd h (not_accepts_of_error refused)

/-- **Numerals that are read are in range.** -/
theorem number?_of_accepts {s : State} (awaits : Awaits s frames) (stops : Stops rest)
    (h : Accepts s (n.text ++ rest)) : n.number?.isSome := by
  rw [Accepts, run_numeral_append awaits n rest] at h
  obtain ⟨l, reached, later⟩ := exists_literal_of_accepts h
  obtain ⟨x, number⟩ := exists_number_of_accepts (Literal.canEnd_literal? reached) stops later
  rw [n.number?_eq_number, reached, Option.bind_some, number]
  rfl

end

/-! ## Trees -/

section

variable {frames : List Frame} {before : List (String × Value)} {room : Nat}

theorem accepts_cons_iff_of_awaits (h : Awaits s frames) (notSpace : isSpace c = false)
    (notClosing : c ≠ ']') (begun : beginValue frames c = .ok t) :
    Accepts s (c :: rest) ↔ Accepts t rest :=
  accepts_cons_iff ((h.first c notSpace notClosing).trans begun)

theorem accepts_gap_iff (h : ∀ c, isSpace c = true → s.step c = .ok s) {gap : List Char}
    (spaces : IsGap gap) : Accepts s (gap ++ rest) ↔ Accepts s rest :=
  accepts_append_iff (run_gap h spaces)

/-- A list or an object is read only where one more may be open. -/
theorem accepts_open (h : Awaits s frames) (notSpace : isSpace c = false) (notClosing : c ≠ ']')
    (begun : beginValue frames c =
      if maxDepth ≤ frames.length then .error ⟨.tooDeep, 1⟩ else .ok t)
    (accepts : Accepts s (c :: rest)) : frames.length < maxDepth ∧ Accepts t rest := by
  have first := (h.first c notSpace notClosing).trans begun
  by_cases full : maxDepth ≤ frames.length
  · exact absurd accepts (not_accepts_of_error (first.trans (if_pos full)))
  · exact ⟨Nat.not_le.mp full, (accepts_cons_iff (first.trans (if_neg full))).mp accepts⟩

/-- What holds of a tree where the machine reads on after its characters, and as many lists and
objects are open before them as leave `room`: the tree keeps the limits. -/
def Limits (room : Nat) : {k : Kind} → Tree k → Prop
  | .value, t | .item, t => ∀ s frames rest, Awaits s frames → frames.length + room = maxDepth →
      Stops rest → Accepts s (t.text ++ rest) → t.Within room
  | .items, t => ∀ s frames before rest, Awaits s (.list before :: frames) →
      frames.length + 1 + room = maxDepth → Stops rest → Accepts s (t.text ++ rest) →
      t.Within room
  | .member, t | .members, t => ∀ s frames before rest, AwaitsKey s frames before →
      frames.length + 1 + room = maxDepth → Stops rest → Accepts s (t.text ++ rest) →
      t.Within room

theorem stops_comma : Stops (',' :: rest) := stops_cons (by decide)

/-- After an item that keeps the limits and a comma, the next item is due. -/
theorem accepts_after_item {item : Tree .item} (within : item.Within room) {before : List Value}
    (awaits : Awaits s (.list before :: frames)) (depth : frames.length + 1 + room = maxDepth)
    (h : Accepts s (item.text ++ ',' :: rest)) :
    ∃ items, Accepts ⟨frames, .nextItem items⟩ rest := by
  obtain ⟨v, spelled, -⟩ := spelled_of_within within
  obtain ⟨t, reached, settled⟩ :=
    reads_of_spells spelled s (.list before :: frames) awaits depth.le
  refine ⟨v :: before, ?_⟩
  rw [accepts_append_iff reached, settled.accepts_iff stops_comma] at h
  exact (accepts_cons_iff rfl).mp h

/-- After a member that keeps the limits and a comma, the next key is due. -/
theorem accepts_after_member {member : Tree .member} (within : member.Within room)
    (awaits : AwaitsKey s frames before) (depth : frames.length + 1 + room = maxDepth)
    (h : Accepts s (member.text ++ ',' :: rest)) :
    ∃ members, Accepts ⟨frames, .nextKey members⟩ rest := by
  obtain ⟨name, v, spelled⟩ := spelled_of_within within
  obtain ⟨t, reached, settled⟩ := reads_of_spells spelled s frames before awaits depth.le
  refine ⟨(name, v) :: before, ?_⟩
  rw [accepts_append_iff reached, settled.accepts_iff stops_comma] at h
  exact (accepts_cons_iff rfl).mp h

/-- A key has its surrogates in pairs, and after it a colon a value is due. -/
theorem accepts_key {key : Quotation} {gap after : List Char} (awaits : AwaitsKey s frames before)
    (hgap : IsGap gap) (hafter : IsGap after)
    (h : Accepts s (gap ++ key.text ++ after ++ ':' :: rest)) :
    Paired key ∧ ∃ name, Accepts ⟨.member before name :: frames, .value⟩ rest := by
  rw [List.append_assoc, List.append_assoc, accepts_gap_iff awaits.space hgap] at h
  have paired : Paired key := by
    rw [Quotation.text, List.cons_append, accepts_cons_iff awaits.quote, List.append_assoc,
      List.singleton_append] at h
    exact (carries_key frames before).paired_of_accepts h
  obtain ⟨name, spelled⟩ := exists_spellsText_of_paired paired
  have space : ∀ c, isSpace c = true →
      (State.mk frames (.colon before name)).step c = .ok ⟨frames, .colon before name⟩ := by
    intro c blank
    simp only [step, blank, if_true]
  rw [accepts_append_iff (run_keyText awaits spelled), accepts_gap_iff space hafter] at h
  exact ⟨paired, name, (accepts_cons_iff rfl).mp h⟩

theorem limits {k : Kind} (t : Tree k) (room : Nat) : Limits room t := by
  -- Where two trees follow each other, the first keeps the limits, so it is read as a phrase, and
  -- the second is due after it.
  induction t generalizing room with
  | null => exact fun _ _ _ _ _ _ _ => Tree.within_leaf rfl rfl rfl
  | true => exact fun _ _ _ _ _ _ _ => Tree.within_leaf rfl rfl rfl
  | false => exact fun _ _ _ _ _ _ _ => Tree.within_leaf rfl rfl rfl
  | number n =>
    intro s frames rest awaits _ stops accepts
    refine ⟨Nat.zero_le _, List.forall_mem_nil _, ?_⟩
    exact List.forall_mem_singleton.mpr (number?_of_accepts awaits stops accepts)
  | quotation q =>
    intro s frames rest awaits _ _ accepts
    refine ⟨Nat.zero_le _, List.forall_mem_singleton.mpr ?_, List.forall_mem_nil _⟩
    rw [Tree.text, Quotation.text, List.cons_append,
      accepts_cons_iff_of_awaits awaits (by decide) (by decide) rfl, List.append_assoc,
      List.singleton_append] at accepts
    exact (carries_text frames).paired_of_accepts accepts
  | noItems gap =>
    intro s frames rest awaits depth _ accepts
    obtain ⟨shallow, -⟩ := accepts_open awaits (by decide) (by decide) rfl accepts
    exact ⟨by rw [Tree.depth]; omega, List.forall_mem_nil _, List.forall_mem_nil _⟩
  | list items ih =>
    intro s frames rest awaits depth _ accepts
    rw [Tree.text, List.cons_append, List.append_assoc] at accepts
    obtain ⟨shallow, inner⟩ := accepts_open awaits (by decide) (by decide) rfl accepts
    obtain ⟨left, rfl⟩ := Nat.exists_eq_add_of_le' (by omega : 1 ≤ room)
    have within := ih left _ frames [] _ awaits_firstItem (by omega) (stops_cons (by decide)) inner
    exact ⟨Nat.succ_le_succ within.shallow, within.paired, within.inRange⟩
  | noMembers gap =>
    intro s frames rest awaits depth _ accepts
    obtain ⟨shallow, -⟩ := accepts_open awaits (by decide) (by decide) rfl accepts
    exact ⟨by rw [Tree.depth]; omega, List.forall_mem_nil _, List.forall_mem_nil _⟩
  | object members ih =>
    intro s frames rest awaits depth _ accepts
    rw [Tree.text, List.cons_append, List.append_assoc] at accepts
    obtain ⟨shallow, inner⟩ := accepts_open awaits (by decide) (by decide) rfl accepts
    obtain ⟨left, rfl⟩ := Nat.exists_eq_add_of_le' (by omega : 1 ≤ room)
    have within :=
      ih left _ frames [] _ awaitsKey_firstKey (by omega) (stops_cons (by decide)) inner
    exact ⟨Nat.succ_le_succ within.shallow, within.paired, within.inRange⟩
  | item before value after ih =>
    intro s frames rest awaits depth stops accepts
    rw [Tree.text, List.append_assoc, List.append_assoc,
      accepts_gap_iff awaits.space before.property] at accepts
    have within := ih room s frames _ awaits depth (stops_gap_append after.property stops) accepts
    exact ⟨within.shallow, within.paired, within.inRange⟩
  | lastItem item ih =>
    intro s frames before rest awaits depth stops accepts
    have within := ih room s (.list before :: frames) rest awaits depth stops accepts
    exact ⟨within.shallow, within.paired, within.inRange⟩
  | moreItems item later first ih =>
    intro s frames before rest awaits depth stops accepts
    rw [Tree.text, List.append_assoc, List.cons_append] at accepts
    have within := first room s (.list before :: frames) _ awaits depth stops_comma accepts
    obtain ⟨items, next⟩ := accepts_after_item within awaits depth accepts
    have within' := ih room _ frames items rest awaits_nextItem depth stops next
    exact (Tree.within_both_iff rfl rfl rfl).mpr ⟨within, within'⟩
  | member before key after value ih =>
    intro s frames earlier rest awaits depth stops accepts
    rw [Tree.text, List.append_assoc, List.cons_append] at accepts
    obtain ⟨paired, name, next⟩ := accepts_key awaits before.property after.property accepts
    have within := ih room _ (.member earlier name :: frames) rest awaits_value depth stops next
    exact ⟨within.shallow, List.forall_mem_cons.mpr ⟨paired, within.paired⟩, within.inRange⟩
  | lastMember member ih =>
    intro s frames before rest awaits depth stops accepts
    have within := ih room s frames before rest awaits depth stops accepts
    exact ⟨within.shallow, within.paired, within.inRange⟩
  | moreMembers member later first ih =>
    intro s frames before rest awaits depth stops accepts
    rw [Tree.text, List.append_assoc, List.cons_append] at accepts
    have within := first room s frames before _ awaits depth stops_comma accepts
    obtain ⟨members, next⟩ := accepts_after_member within awaits depth accepts
    have within' := ih room _ frames members rest awaitsKey_nextKey depth stops next
    exact (Tree.within_both_iff rfl rfl rfl).mpr ⟨within, within'⟩

end

end State

open State in
/-- **Every derivation of a text that is read keeps the limits.** -/
theorem within_of_read {t : Tree .item} {v : Value} (h : read t.text = .ok v) :
    t.Within maxDepth := by
  obtain ⟨u, reached, ended⟩ := read_eq_ok_iff.mp h
  refine limits t maxDepth start [] [] awaits_value (Nat.zero_add _) nofun ⟨u, v, ?_, ended⟩
  rw [List.append_nil, reached]

end LatencyLog.Json
