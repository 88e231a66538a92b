import LatencyLog.Proofs.Json.Reading

/-! # Spellings of JSON values

The grammar of JSON texts, with the value that each text denotes.

* `Json.Phrase`: a value, a list item or an object member, or several of these between commas.
* `Json.Spells`: the characters that a phrase may be written in, with at most a number of lists and
  objects open at once.
* `Json.read_of_spells`: a text that spells a value, with at most `State.maxDepth` lists and objects
  open at once, is read as that value.
-/

namespace LatencyLog.Json

set_option autoImplicit false

open Text

/-! ## Grammar -/

inductive Phrase where
  | value (v : Value)
  /-- A value between gaps. -/
  | item (v : Value)
  | items (vs : List Value)
  | member (name : String) (v : Value)
  | members (ms : List (String × Value))

open State in
/-- The spellings of phrases in which at most `room` lists and objects are open at once. -/
inductive Spells : Nat → Phrase → List Char → Prop where
  | null (room : Nat) : Spells room (.value .null) ['n', 'u', 'l', 'l']
  | true (room : Nat) : Spells room (.value (.bool true)) ['t', 'r', 'u', 'e']
  | false (room : Nat) : Spells room (.value (.bool false)) ['f', 'a', 'l', 's', 'e']
  | number (room : Nat) {n : Numeral} {x : Number} (h : n.number? = some x) :
      Spells room (.value (.number x)) n.text
  | text (room : Nat) {t : String} {cs : List Char} (h : SpellsText t cs) :
      Spells room (.value (.text t)) cs
  | noItems (room : Nat) {gap : List Char} (h : IsGap gap) :
      Spells (room + 1) (.value (.list [])) ('[' :: (gap ++ [']']))
  | list {room : Nat} {vs : List Value} {cs : List Char} (h : Spells room (.items vs) cs) :
      Spells (room + 1) (.value (.list vs)) ('[' :: (cs ++ [']']))
  | noMembers (room : Nat) {gap : List Char} (h : IsGap gap) :
      Spells (room + 1) (.value (.object [])) ('\x7b' :: (gap ++ ['\x7d']))
  | object {room : Nat} {ms : List (String × Value)} {cs : List Char}
      (h : Spells room (.members ms) cs) :
      Spells (room + 1) (.value (.object ms)) ('\x7b' :: (cs ++ ['\x7d']))
  | item {room : Nat} {v : Value} {before cs after : List Char} (hbefore : IsGap before)
      (h : Spells room (.value v) cs) (hafter : IsGap after) :
      Spells room (.item v) (before ++ cs ++ after)
  | lastItem {room : Nat} {v : Value} {cs : List Char} (h : Spells room (.item v) cs) :
      Spells room (.items [v]) cs
  | moreItems {room : Nat} {v : Value} {vs : List Value} {cs rest : List Char}
      (h : Spells room (.item v) cs) (later : Spells room (.items vs) rest) :
      Spells room (.items (v :: vs)) (cs ++ ',' :: rest)
  | member {room : Nat} {name : String} {v : Value} {before key after cs : List Char}
      (hbefore : IsGap before) (hkey : SpellsText name key) (hafter : IsGap after)
      (h : Spells room (.item v) cs) :
      Spells room (.member name v) (before ++ key ++ after ++ ':' :: cs)
  | lastMember {room : Nat} {name : String} {v : Value} {cs : List Char}
      (h : Spells room (.member name v) cs) : Spells room (.members [(name, v)]) cs
  | moreMembers {room : Nat} {name : String} {v : Value} {ms : List (String × Value)}
      {cs rest : List Char} (h : Spells room (.member name v) cs)
      (later : Spells room (.members ms) rest) :
      Spells room (.members ((name, v) :: ms)) (cs ++ ',' :: rest)

namespace State

variable {room : Nat} {frames : List Frame} {s : State}

/-! ## Tokens read -/

theorem run_cons_of_awaits (h : Awaits s frames) {c : Char} (notSpace : isSpace c = false)
    (notClosing : c ≠ ']') {next : State} (begun : beginValue frames c = .ok next)
    (rest : List Char) : s.run (c :: rest) = next.run rest :=
  run_cons ((h.first c notSpace notClosing).trans begun) rest

theorem run_wordValue (h : Awaits s frames) {c next : Char} {rest : List Char} {v : Value}
    (notSpace : isSpace c = false) (notClosing : c ≠ ']')
    (begun : beginValue frames c = .ok ⟨frames, .word v next rest⟩) :
    s.run (c :: next :: rest) = some (paused (complete frames v)) := by
  rw [run_cons_of_awaits h notSpace notClosing begun]
  exact run_word next rest

theorem run_quoted {t : String} {cs : List Char} (h : SpellsText t cs) :
    ∃ inner q, cs = '"' :: (inner ++ ['"']) ∧ Quoted.start.run inner = some q ∧
      q.step '"' = .ok (.closed t) := by
  obtain ⟨inner, spelled, rfl⟩ := h
  refine ⟨inner, _, rfl, Quoted.run_of_spellsCharacters spelled, ?_⟩
  simp only [Quoted.step, if_true, List.append_nil, List.reverse_reverse, String.ofList_toList]

theorem run_textValue (h : Awaits s frames) {t : String} {cs : List Char}
    (spelled : SpellsText t cs) :
    s.run cs = some (paused (complete frames (.text t))) := by
  obtain ⟨inner, q, rfl, reached, closed⟩ := run_quoted spelled
  rw [run_cons_of_awaits h (by decide) (by decide) rfl, run_append_of_run (run_text reached)]
  refine run_cons ?_ []
  simp only [step, closed]

theorem run_keyText {members : List (String × Value)} (h : AwaitsKey s frames members)
    {name : String} {cs : List Char} (spelled : SpellsText name cs) :
    s.run cs = some ⟨frames, .colon members name⟩ := by
  obtain ⟨inner, q, rfl, reached, closed⟩ := run_quoted spelled
  rw [run_cons h.quote, run_append_of_run (run_key reached)]
  refine run_cons ?_ []
  simp only [step, closed]

theorem digitChar_ne {c : Char} (h : digit? c = none) (d : Fin 10) : digitChar d ≠ c := by
  intro same
  rw [← same, digit?_digitChar] at h
  cases h

theorem isSpace_digitChar : ∀ d : Fin 10, isSpace (digitChar d) = false := by decide

theorem beginValue_digitChar (d : Fin 10) :
    beginValue frames (digitChar d) = .ok ⟨frames, .number (Literal.firstDigit false d)⟩ := by
  have notN : digitChar d ≠ 'n' := digitChar_ne rfl d
  have notT : digitChar d ≠ 't' := digitChar_ne rfl d
  have notF : digitChar d ≠ 'f' := digitChar_ne rfl d
  have notQuote : digitChar d ≠ '"' := digitChar_ne rfl d
  have notMinus : digitChar d ≠ '-' := digitChar_ne rfl d
  have notBracket : digitChar d ≠ '[' := digitChar_ne rfl d
  have notBrace : digitChar d ≠ '\x7b' := digitChar_ne rfl d
  simp only [beginValue, if_neg notN, if_neg notT, if_neg notF, if_neg notQuote, if_neg notMinus,
    if_neg notBracket, if_neg notBrace, digit?_digitChar]

theorem beginValue_bracket (h : frames.length < maxDepth) :
    beginValue frames '[' = .ok ⟨frames, .firstItem⟩ :=
  if_neg (Nat.not_le.mpr h)

theorem beginValue_brace (h : frames.length < maxDepth) :
    beginValue frames '\x7b' = .ok ⟨frames, .firstKey⟩ :=
  if_neg (Nat.not_le.mpr h)

theorem step_closingBracket (vs : List Value) :
    (State.mk frames (.pause (.item vs.reverse))).step ']' =
      .ok (paused (complete frames (.list vs))) :=
  congrArg (fun items => Except.ok (paused (complete frames (.list items)))) vs.reverse_reverse

theorem step_closingBrace (ms : List (String × Value)) :
    (State.mk frames (.pause (.member ms.reverse))).step '\x7d' =
      .ok (paused (complete frames (.object ms))) :=
  congrArg (fun members => Except.ok (paused (complete frames (.object members))))
    ms.reverse_reverse

/-- The machine takes the sign and the first digit of a numeral together. -/
theorem run_numeral_append (h : Awaits s frames) (n : Numeral) (rest : List Char) :
    s.run (n.text ++ rest) =
      (State.mk frames (.number (Literal.firstDigit n.negative n.lead))).run (n.tail ++ rest) := by
  rw [Numeral.text]
  cases n.negative with
  | false =>
    have notClosing : digitChar n.lead ≠ ']' := digitChar_ne rfl n.lead
    exact run_cons_of_awaits h (isSpace_digitChar n.lead) notClosing (beginValue_digitChar n.lead) _
  | true =>
    have first : (State.mk frames (.number Literal.minus)).step (digitChar n.lead) =
        .ok ⟨frames, .number (Literal.firstDigit true n.lead)⟩ := by
      simp only [step, stepNumber, Literal.step, Literal.minus, digit?_digitChar]
    rw [if_pos rfl, List.singleton_append, List.cons_append, List.cons_append,
      run_cons_of_awaits h (by decide) (by decide) rfl, run_cons first]

theorem run_numeral (h : Awaits s frames) {n : Numeral} {x : Number}
    (denoted : n.number? = some x) :
    ∃ t, s.run n.text = some t ∧ Settles t (paused (complete frames (.number x))) := by
  obtain ⟨l, reached, whole, number⟩ := Literal.run_tail_of_number? denoted
  refine ⟨⟨frames, .number l⟩, ?_, settles_number whole number⟩
  have begun := run_numeral_append h n []
  rw [List.append_nil, List.append_nil] at begun
  exact begun.trans (run_number reached)

/-! ## Phrases read -/

/-- What the machine does with the characters of a phrase, where `room` lists and objects may still
be opened. A value settles where its own end settles; items and members join those before them. -/
def Reads (room : Nat) : Phrase → List Char → Prop
  | .value v, cs | .item v, cs => ∀ s frames, Awaits s frames → frames.length + room ≤ maxDepth →
      ∃ t, s.run cs = some t ∧ Settles t (paused (complete frames v))
  | .items vs, cs => ∀ s frames before, Awaits s (.list before :: frames) →
      frames.length + 1 + room ≤ maxDepth →
      ∃ t, s.run cs = some t ∧ Settles t ⟨frames, .pause (.item (vs.reverse ++ before))⟩
  | .member name v, cs => ∀ s frames before, AwaitsKey s frames before →
      frames.length + 1 + room ≤ maxDepth →
      ∃ t, s.run cs = some t ∧ Settles t ⟨frames, .pause (.member ((name, v) :: before))⟩
  | .members ms, cs => ∀ s frames before, AwaitsKey s frames before →
      frames.length + 1 + room ≤ maxDepth →
      ∃ t, s.run cs = some t ∧ Settles t ⟨frames, .pause (.member (ms.reverse ++ before))⟩

theorem reads_of_spells {p : Phrase} {cs : List Char} (h : Spells room p cs) :
    Reads room p cs := by
  -- A bracket adds a frame and takes one list or object off `room`, so their sum never grows.
  induction h with
  | null room =>
    intro s frames awaits _
    exact ⟨_, run_wordValue awaits (by decide) (by decide) rfl, Settles.refl _⟩
  | true room =>
    intro s frames awaits _
    exact ⟨_, run_wordValue awaits (by decide) (by decide) rfl, Settles.refl _⟩
  | false room =>
    intro s frames awaits _
    exact ⟨_, run_wordValue awaits (by decide) (by decide) rfl, Settles.refl _⟩
  | number room denoted =>
    intro s frames awaits _
    exact run_numeral awaits denoted
  | text room spelled =>
    intro s frames awaits _
    exact ⟨_, run_textValue awaits spelled, Settles.refl _⟩
  | noItems room gap =>
    intro s frames awaits depth
    refine ⟨paused (complete frames (.list [])), ?_, Settles.refl _⟩
    rw [run_cons_of_awaits awaits (by decide) (by decide) (beginValue_bracket (by omega)),
      run_append_of_run (run_gap awaits_firstItem.space gap)]
    exact run_cons rfl []
  | @list room vs cs _ ih =>
    intro s frames awaits depth
    refine ⟨paused (complete frames (.list vs)), ?_, Settles.refl _⟩
    obtain ⟨t, reached, settled⟩ := ih ⟨frames, .firstItem⟩ frames [] awaits_firstItem (by omega)
    rw [List.append_nil] at settled
    rw [run_cons_of_awaits awaits (by decide) (by decide) (beginValue_bracket (by omega)),
      run_append_of_run reached, settled.run_cons (by decide)]
    exact run_cons (step_closingBracket vs) []
  | noMembers room gap =>
    intro s frames awaits depth
    refine ⟨paused (complete frames (.object [])), ?_, Settles.refl _⟩
    rw [run_cons_of_awaits awaits (by decide) (by decide) (beginValue_brace (by omega)),
      run_append_of_run (run_gap awaitsKey_firstKey.space gap)]
    exact run_cons rfl []
  | @object room ms cs _ ih =>
    intro s frames awaits depth
    refine ⟨paused (complete frames (.object ms)), ?_, Settles.refl _⟩
    obtain ⟨t, reached, settled⟩ := ih ⟨frames, .firstKey⟩ frames [] awaitsKey_firstKey (by omega)
    rw [List.append_nil] at settled
    rw [run_cons_of_awaits awaits (by decide) (by decide) (beginValue_brace (by omega)),
      run_append_of_run reached, settled.run_cons (by decide)]
    exact run_cons (step_closingBrace ms) []
  | @item room v before cs after hbefore _ hafter ih =>
    intro s frames awaits depth
    obtain ⟨t, reached, settled⟩ := ih s frames awaits depth
    obtain ⟨u, gone, still⟩ := settled.run_gap hafter
    refine ⟨u, ?_, still⟩
    rw [run_append_of_run (t := t), gone]
    rw [run_append_of_run (run_gap awaits.space hbefore), reached]
  | lastItem _ ih =>
    intro s frames before awaits depth
    exact ih s (.list before :: frames) awaits depth
  | @moreItems room v vs cs rest _ _ first later =>
    intro s frames before awaits depth
    obtain ⟨t, reached, settled⟩ := first s (.list before :: frames) awaits depth
    obtain ⟨u, gone, still⟩ := later ⟨frames, .nextItem (v :: before)⟩ frames (v :: before)
      awaits_nextItem depth
    refine ⟨u, ?_, ?_⟩
    · rw [run_append_of_run reached, settled.run_cons (by decide), ← gone]
      exact run_cons rfl rest
    · rw [List.reverse_cons, List.append_assoc]
      exact still
  | @member room name v before key after cs hbefore hkey hafter _ ih =>
    intro s frames earlier awaits depth
    obtain ⟨t, reached, settled⟩ := ih ⟨.member earlier name :: frames, .value⟩
      (.member earlier name :: frames) awaits_value depth
    refine ⟨t, ?_, settled⟩
    have named : s.run (before ++ key ++ after) = some ⟨frames, .colon earlier name⟩ := by
      have toKey : s.run (before ++ key) = some ⟨frames, .colon earlier name⟩ := by
        rw [run_append_of_run (run_gap awaits.space hbefore), run_keyText awaits hkey]
      rw [run_append_of_run toKey]
      exact run_gap (fun c space => by simp only [step, space, if_true]) hafter
    rw [run_append_of_run named, ← reached]
    exact run_cons rfl cs
  | lastMember _ ih =>
    intro s frames before awaits depth
    exact ih s frames before awaits depth
  | @moreMembers room name v ms cs rest _ _ first later =>
    intro s frames before awaits depth
    obtain ⟨t, reached, settled⟩ := first s frames before awaits depth
    obtain ⟨u, gone, still⟩ := later ⟨frames, .nextKey ((name, v) :: before)⟩ frames
      ((name, v) :: before) awaitsKey_nextKey depth
    refine ⟨u, ?_, ?_⟩
    · rw [run_append_of_run reached, settled.run_cons (by decide), ← gone]
      exact run_cons rfl rest
    · rw [List.reverse_cons, List.append_assoc]
      exact still

end State

open State in
/-- **A text that spells a value is read as this value**, whatever gaps, letters of escapes and
digits it is spelled with. -/
theorem read_of_spells {v : Value} {text : List Char} (h : Spells maxDepth (.item v) text) :
    read text = .ok v := by
  obtain ⟨t, reached, settled⟩ := reads_of_spells h start [] awaits_value (Nat.le_refl _)
  exact read_eq_ok_iff.mpr ⟨t, reached, settled.atEnd_eq⟩

end LatencyLog.Json
