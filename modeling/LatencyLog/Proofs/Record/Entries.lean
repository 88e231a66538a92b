import LatencyLog.Proofs.Json.Grammar
import LatencyLog.Record
import Mathlib.Data.List.Forall2

/-! # Entries of object trees

* `Json.Tree.entries`: the keys and values of an object, as they are written.
* `Json.Tree.LastLatency`: the value that stands last under the latency key.
* `Json.exists_members_of_lastLatency`: the member that a tree spells with that value.
* `Json.exists_record`: every value may be written as a latency.
-/

namespace LatencyLog

set_option autoImplicit false

open Text

namespace Json

/-! ## Entries -/

namespace Tree

/-- An item without the gaps around it. -/
def bare : Tree .item → Tree .value
  | item _ value _ => value

/-- The keys and values of an object, in their order. -/
def entries {k : Kind} : Tree k → List (Quotation × Tree .value)
  | object members => members.entries
  | item _ value _ => value.entries
  | member _ key _ value => [(key, value.bare)]
  | lastMember last => last.entries
  | moreMembers first later => first.entries ++ later.entries
  | _ => []

/-- The value stands in the last of the entries whose key reads as the latency key. -/
def LastLatency (t : Tree .item) (value : Tree .value) : Prop :=
  ∃ earlier key later, t.entries = earlier ++ (key, value) :: later ∧
    SpellsText latencyKey key.text ∧ ∀ e ∈ later, ¬SpellsText latencyKey e.1.text

theorem length_le_of_mem_entries {k : Kind} {t : Tree k} {e : Quotation × Tree .value}
    (h : e ∈ t.entries) : e.1.text.length + e.2.text.length < t.text.length := by
  induction t with
  | object members ih =>
    have inner := ih h
    rw [text, List.length_cons, List.length_append]
    omega
  | item before value after ih =>
    have inner := ih h
    rw [text, List.length_append, List.length_append]
    omega
  | member before key after value =>
    obtain rfl := List.mem_singleton.mp h
    cases value
    simp only [bare, text, List.length_append, List.length_cons]
    omega
  | lastMember last ih => exact ih h
  | moreMembers first later ih ih' =>
    rw [text, List.length_append, List.length_cons]
    rcases List.mem_append.mp h with earlier | rest
    · have inner := ih earlier
      omega
    · have inner := ih' rest
      omega
  | _ => cases h

theorem numerals_subset_of_mem_entries {k : Kind} {t : Tree k} {e : Quotation × Tree .value}
    (h : e ∈ t.entries) : e.2.numerals ⊆ t.numerals := by
  induction t with
  | object members ih => exact ih h
  | item before value after ih => exact ih h
  | member before key after value =>
    obtain rfl := List.mem_singleton.mp h
    cases value
    exact List.Subset.refl _
  | lastMember last ih => exact ih h
  | moreMembers first later ih ih' =>
    rcases List.mem_append.mp h with earlier | rest
    · exact List.subset_append_of_subset_left _ (ih earlier)
    · exact List.subset_append_of_subset_right _ (ih' rest)
  | _ => cases h

theorem LastLatency.mem_numerals {t : Tree .item} {n : Numeral} (h : t.LastLatency (.number n)) :
    n ∈ t.numerals := by
  obtain ⟨earlier, key, later, split, -⟩ := h
  have member : (key, .number n) ∈ t.entries := by
    rw [split]
    exact List.mem_append_right _ List.mem_cons_self
  exact numerals_subset_of_mem_entries member List.mem_cons_self

end Tree

/-! ## Sizes -/

theorem length_le_of_spellsCharacters {text cs : List Char} (h : SpellsCharacters text cs) :
    text.length ≤ cs.length := by
  induction h with
  | nil => exact Nat.le_refl _
  | @cons c rest first more head _ ih =>
    have some : 1 ≤ first.length := by
      cases head <;> simp
    rw [List.length_cons, List.length_append]
    omega

theorem length_latencyKey_le {key : List Char} (h : SpellsText latencyKey key) :
    16 ≤ key.length := by
  obtain ⟨inner, spelled, rfl⟩ := h
  have letters : latencyKey.toList.length = 14 := by decide +kernel
  have length := length_le_of_spellsCharacters spelled
  rw [List.length_cons, List.length_append, List.length_singleton]
  omega

/-- What a line holds beside its last latency: the key, the braces and the colon at least. -/
theorem Tree.LastLatency.length_le {t : Tree .item} {u : Tree .value} (h : t.LastLatency u) :
    u.text.length + 19 ≤ t.text.length := by
  obtain ⟨earlier, key, later, split, named, -⟩ := h
  have wide := length_latencyKey_le named
  cases t with
  | item before value after =>
    cases value with
    | object members =>
      have member : (key, u) ∈ members.entries := by
        rw [show members.entries = _ from split]
        exact List.mem_append_right _ List.mem_cons_self
      have inner := length_le_of_mem_entries member
      simp only [text, List.length_append, List.length_cons] at inner ⊢
      omega
    | _ => simp [entries] at split

/-! ## Texts that spell one value -/

open State in
theorem eq_of_spells {room : Nat} (depth : room ≤ maxDepth) {v w : Value} {cs : List Char}
    (hv : Spells room (.value v) cs) (hw : Spells room (.value w) cs) : v = w := by
  have depth : ([] : List Frame).length + room ≤ maxDepth := (Nat.zero_add room).le.trans depth
  obtain ⟨t, reached, settled⟩ := reads_of_spells hv start [] awaits_value depth
  obtain ⟨u, reached', settled'⟩ := reads_of_spells hw start [] awaits_value depth
  obtain rfl := Option.some.inj (reached.symm.trans reached')
  have same : Except.ok v = Except.ok w := settled.atEnd_eq.symm.trans settled'.atEnd_eq
  exact Except.ok.inj same

theorem eq_of_spellsText {s t : String} {cs : List Char} (hs : SpellsText s cs)
    (ht : SpellsText t cs) : s = t := by
  have same := eq_of_spells (Nat.zero_le _) (.text 0 hs) (.text 0 ht)
  exact Value.text.inj same

/-! ## Members of an object tree -/

/-- The member is written as the entry. -/
def MatchesEntry (room : Nat) (m : String × Value) (e : Quotation × Tree .value) : Prop :=
  SpellsText m.1 e.1.text ∧ Spells room (.value m.2) e.2.text

variable {room : Nat}

theorem ne_of_matchesEntry {name : String} {members : List (String × Value)}
    {entries : List (Quotation × Tree .value)}
    (h : List.Forall₂ (MatchesEntry room) members entries)
    (others : ∀ e ∈ entries, ¬SpellsText name e.1.text) : ∀ m ∈ members, m.1 ≠ name := by
  induction h with
  | nil => exact List.forall_mem_nil _
  | cons first _ ih =>
    obtain ⟨other, rest⟩ := List.forall_mem_cons.mp others
    refine List.forall_mem_cons.mpr ⟨?_, ih rest⟩
    rintro rfl
    exact other first.1

theorem exists_member_of_within {t : Tree .member} (h : t.Within room) :
    ∃ name v, Spells room (.member name v) t.text ∧
      List.Forall₂ (MatchesEntry room) [(name, v)] t.entries := by
  cases t with
  | member before key after value =>
    cases value with
    | item first value last =>
      obtain ⟨paired, others⟩ := List.forall_mem_cons.mp h.paired
      have within : value.Within room := ⟨h.shallow, others, h.inRange⟩
      obtain ⟨v, spelled, -⟩ := spelled_of_within within
      obtain ⟨name, spelledKey⟩ := exists_spellsText_of_paired paired
      exact ⟨name, v, .member before.property spelledKey after.property
        (.item first.property spelled last.property), .cons ⟨spelledKey, spelled⟩ .nil⟩

theorem exists_members_of_within :
    ∀ {t : Tree .members}, t.Within room → ∃ ms, Spells room (.members ms) t.text ∧
      List.Forall₂ (MatchesEntry room) ms t.entries
  | .lastMember last, h => by
    obtain ⟨name, v, spelled, same⟩ :=
      exists_member_of_within (t := last) ⟨h.shallow, h.paired, h.inRange⟩
    exact ⟨_, .lastMember spelled, same⟩
  | .moreMembers first later, h => by
    obtain ⟨within, within'⟩ := (Tree.within_both_iff rfl rfl rfl).mp h
    obtain ⟨name, v, spelled, same⟩ := exists_member_of_within within
    obtain ⟨ms, spelled', same'⟩ := exists_members_of_within within'
    exact ⟨_, .moreMembers spelled spelled', List.rel_append same same'⟩

/-- An object tree with entries spells an object with a member for each of them. -/
theorem exists_object_of_within {t : Tree .item} (h : t.Within (room + 1))
    (some : t.entries ≠ []) :
    ∃ ms, Spells (room + 1) (.item (.object ms)) t.text ∧
      List.Forall₂ (MatchesEntry room) ms t.entries := by
  cases t with
  | item before value after =>
    cases value with
    | object members =>
      have shallow : members.depth + 1 ≤ room + 1 := h.shallow
      obtain ⟨ms, spelled, same⟩ := exists_members_of_within (t := members)
        ⟨Nat.le_of_succ_le_succ shallow, h.paired, h.inRange⟩
      exact ⟨ms, .item before.property (.object spelled) after.property, same⟩
    | _ => exact absurd rfl some

/-- **The last latency of a line**: the line spells an object, and the last of its members under the
latency key has the value that is written there. -/
theorem exists_members_of_lastLatency {t : Tree .item} {u : Tree .value}
    (within : t.Within (room + 1)) (h : t.LastLatency u) :
    ∃ earlier v later,
      Spells (room + 1) (.item (.object (earlier ++ (latencyKey, v) :: later))) t.text ∧
        (∀ m ∈ later, m.1 ≠ latencyKey) ∧ Spells room (.value v) u.text := by
  obtain ⟨earlier, key, later, split, spelledKey, last⟩ := h
  obtain ⟨ms, spelled, same⟩ := exists_object_of_within within (by simp [split])
  rw [split] at same
  obtain ⟨⟨name, v⟩, rest, ⟨named, valued⟩, others, dropped⟩ :=
    List.forall₂_cons_right_iff.mp (List.forall₂_drop_append _ _ _ same)
  obtain rfl := eq_of_spellsText named spelledKey
  refine ⟨ms.take earlier.length, v, rest, ?_, ?_, valued⟩
  · rw [← dropped, List.take_append_drop]
    exact spelled
  · exact ne_of_matchesEntry others last

/-! ## Records with one latency -/

/-- The shortest text of a record with a latency that is written so. -/
def recordText (latency : List Char) : List Char :=
  '\x7b' :: '"' :: (latencyKey.toList ++ '"' :: ':' :: (latency ++ ['\x7d']))

/-- The latency key without an escape. -/
theorem exists_latencyKey :
    ∃ key : Quotation, key.text = '"' :: (latencyKey.toList ++ ['"']) ∧
      SpellsText latencyKey key.text ∧ Paired key := by
  have spelled : SpellsText latencyKey ('"' :: (latencyKey.toList ++ ['"'])) :=
    ⟨latencyKey.toList, spellsCharacters_raw (by decide +kernel), rfl⟩
  obtain ⟨key, written, paired⟩ := exists_quotation_of_spellsText spelled
  exact ⟨key, written, written ▸ spelled, paired⟩

/-- Every value may be written as a latency. -/
theorem exists_record (u : Tree .value) :
    ∃ (t : Tree .item) (key : Quotation), t.text = recordText u.text ∧ t.LastLatency u ∧
      t.depth = u.depth + 1 ∧ Paired key ∧ t.quotations = key :: u.quotations ∧
        t.numerals = u.numerals := by
  obtain ⟨key, written, spelled, paired⟩ := exists_latencyKey
  let none : Gap := ⟨[], State.isGap_nil⟩
  refine ⟨.item none (.object (.lastMember (.member none key none (.item none u none)))) none, key,
    ?_, ⟨[], key, [], rfl, spelled, List.forall_mem_nil _⟩, rfl, paired, rfl, rfl⟩
  simp [Tree.text, none, written, recordText]

/-- Every value may be written as a latency with any other value as one more member after it. -/
theorem exists_record_beside (u v : Tree .value) :
    ∃ t : Tree .item, t.text = recordText (u.text ++ ",\"x\":".toList ++ v.text) ∧
      t.LastLatency u := by
  obtain ⟨key, written, spelled, -⟩ := exists_latencyKey
  let none : Gap := ⟨[], State.isGap_nil⟩
  let other : Quotation := [.raw 'x' (by decide)]
  have otherText : other.text = ['"', 'x', '"'] := rfl
  have otherKey : ¬SpellsText latencyKey other.text := by
    intro same
    have spelled : SpellsText "x" other.text := ⟨['x'], spellsCharacters_raw (by decide), rfl⟩
    exact absurd (eq_of_spellsText same spelled) (by decide)
  refine ⟨.item none (.object (.moreMembers (.member none key none (.item none u none))
    (.lastMember (.member none other none (.item none v none))))) none, ?_,
    ⟨[], key, _, rfl, spelled, List.forall_mem_singleton.mpr otherKey⟩⟩
  simp [Tree.text, none, written, otherText, recordText]

end Json

end LatencyLog
