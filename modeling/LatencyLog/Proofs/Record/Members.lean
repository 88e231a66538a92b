import LatencyLog.Proofs.Record.Coercion

/-! # Records given by their members

* `Json.lastMember?_eq_none`, `Json.lastMember?_eq_some`: the value that `lastMember?` finds.
* `Outcome.ofLine_eq_ofMembers`: the outcome of a line is that of the members it spells.
* `Outcome.ofLine_eq_sample_iff`: a record has a sample just if the value of its last latency
  member has it.
* `Outcome.ofLine_of_spells`: a line amounts to what the value of its last latency member stands
  for.
-/

namespace LatencyLog

set_option autoImplicit false

namespace Json

/-! ## Last members -/

theorem lastMember?_eq_none {name : String} {members : List (String × Value)}
    (h : ∀ m ∈ members, m.1 ≠ name) : lastMember? name members = none := by
  have missing : members.reverse.find? (fun m => m.1 == name) = none := by
    refine List.find?_eq_none.mpr fun m member => ?_
    simpa using h m (List.mem_reverse.mp member)
  rw [lastMember?, missing, Option.map_none]

theorem lastMember?_eq_some {name : String} {v : Value} (earlier : List (String × Value))
    {later : List (String × Value)} (h : ∀ m ∈ later, m.1 ≠ name) :
    lastMember? name (earlier ++ (name, v) :: later) = some v := by
  have missing : later.reverse.find? (fun m => m.1 == name) = none := by
    refine List.find?_eq_none.mpr fun m member => ?_
    simpa using h m (List.mem_reverse.mp member)
  rw [lastMember?, List.reverse_append, List.reverse_cons, List.append_assoc, List.find?_append,
    missing, Option.none_or, List.singleton_append, List.find?_cons, beq_self_eq_true,
    Option.map_some]

/-- A spelled object opens with a brace, so its line is not blank. -/
theorem mem_of_spells_object {room : Nat} {members : List (String × Value)} {cs : List Char}
    (h : Spells room (.item (.object members)) cs) : '\x7b' ∈ cs := by
  cases h with
  | item _ object _ =>
    cases object with
    | noMembers => simp
    | object => simp

theorem integerBounded_of_spells_object {room : Nat} {members : List (String × Value)}
    {cs : List Char} (h : Spells room (.item (.object members)) cs) :
    ∀ v ∈ members.map Prod.snd, IntegerBounded v := by
  cases h with
  | item _ object _ =>
    cases object with
    | noMembers => exact List.forall_mem_nil _
    | object inner => exact integerBounded_of_spells inner

end Json

namespace Outcome

open Json

/-! ## Lines -/

theorem ofLine_eq_ofMembers {members : List (String × Value)} {line : String}
    (h : Spells State.maxDepth (.item (.object members)) line.toList) :
    ofLine line = ofMembers members := by
  have filled : ¬line.toList.all Text.isBlank = true := by
    rw [List.all_eq_true]
    intro blank
    exact absurd (blank _ (mem_of_spells_object h)) (by decide)
  rw [ofLine, if_neg filled, read_of_spells h]
  rfl

section

variable {earlier later : List (String × Value)} {v : Value} {line : String}
  (spelled : Spells State.maxDepth (.item (.object (earlier ++ (latencyKey, v) :: later)))
    line.toList)
  (last : ∀ m ∈ later, m.1 ≠ latencyKey)

include spelled last

theorem ofLine_eq_sample_iff {x : Int128} : ofLine line = .sample x ↔ latency? v = some x := by
  rw [ofLine_eq_ofMembers spelled, ofMembers, lastMember?_eq_some earlier last]
  simp only
  cases latency? v <;> simp

theorem ofLine_eq_nonNumeric_iff : ofLine line = .skipped .nonNumeric ↔ latency? v = none := by
  rw [ofLine_eq_ofMembers spelled, ofMembers, lastMember?_eq_some earlier last]
  simp only
  cases latency? v <;> simp

end

/-- **A record amounts to the value of its last latency member**, whatever its other members are and
however the line spells it. -/
theorem ofLine_of_spells {members : List (String × Value)} {line : String}
    (h : Spells State.maxDepth (.item (.object members)) line.toList) :
    ((∀ m ∈ members, m.1 ≠ latencyKey) → ofLine line = .skipped .missingField) ∧
      ∀ earlier v later, members = earlier ++ (latencyKey, v) :: later →
        (∀ m ∈ later, m.1 ≠ latencyKey) →
          (∀ i, Coerces v i → ∃ x : Int128, x.toInt = i ∧ ofLine line = .sample x) ∧
            ((∀ i, ¬Coerces v i) → ofLine line = .skipped .nonNumeric) := by
  rw [ofLine_eq_ofMembers h, ofMembers]
  constructor
  · intro missing
    rw [lastMember?_eq_none missing]
  · intro earlier v later split last
    have bounded : IntegerBounded v := by
      refine integerBounded_of_spells_object h v ?_
      rw [split, List.map_append, List.map_cons]
      exact List.mem_append_right _ List.mem_cons_self
    rw [split, lastMember?_eq_some earlier last]
    constructor
    · intro i coerced
      obtain ⟨x, same, found⟩ := exists_latency?_of_coerces bounded coerced
      exact ⟨x, same, by simp only [found]⟩
    · intro none
      simp only [latency?_eq_none_of_not_coerces bounded none]

/-- A latency that is null and then, its key spelled with an escape, one of twelve: the last of the
two is the sample. -/
theorem ofLine_of_repeated_latency :
    Spells State.maxDepth
        (.item (.object [(latencyKey, .null), (latencyKey, .number (.integer 12))]))
        "\x7b\"AverageLatency\":null,\"\\u0041verageLatency\": 12\x7d".toList ∧
      ∃ x : Int128, x.toInt = 12 ∧
        ofLine "\x7b\"AverageLatency\":null,\"\\u0041verageLatency\": 12\x7d" = .sample x := by
  have name : latencyKey.toList = 'A' :: "verageLatency".toList := by decide +kernel
  have rest : SpellsCharacters "verageLatency".toList "verageLatency".toList :=
    spellsCharacters_raw (by decide +kernel)
  have raw : SpellsText latencyKey ('"' :: ('A' :: "verageLatency".toList ++ ['"'])) := by
    refine ⟨_, ?_, rfl⟩
    rw [name]
    exact .cons (.raw (by decide) (by decide) (by decide)) rest
  have code : SpellsCode 'A'.toNat ['0', '0', '4', '1'] :=
    .group (a := 0) (b := 0) (c := 4) (d := 1) (.inl rfl) (.inl rfl) (.inl rfl) (.inl rfl)
  have escaped : SpellsText latencyKey
      ('"' :: ('\\' :: 'u' :: ['0', '0', '4', '1'] ++ "verageLatency".toList ++ ['"'])) := by
    refine ⟨_, ?_, rfl⟩
    rw [name]
    exact .cons (.code code) rest
  have noGap : State.IsGap [] := List.forall_mem_nil _
  have blank : State.IsGap [' '] := List.forall_mem_singleton.mpr rfl
  have first : Spells 126 (.member latencyKey .null) _ :=
    .member noGap raw noGap (.item noGap (.null 126) noGap)
  have twelve : Spells 126 (.value (.number (.integer 12))) ['1', '2'] :=
    .number 126 (n := ⟨false, 1, [2], by decide, [], none⟩) rfl
  have second : Spells 126 (.member latencyKey (.number (.integer 12))) _ :=
    .member noGap escaped noGap (.item blank twelve noGap)
  have object : Spells State.maxDepth
      (.item (.object [(latencyKey, .null), (latencyKey, .number (.integer 12))])) _ :=
    .item noGap (.object (.moreMembers first (.lastMember second))) noGap
  have spelled : Spells State.maxDepth
      (.item (.object [(latencyKey, .null), (latencyKey, .number (.integer 12))]))
      "\x7b\"AverageLatency\":null,\"\\u0041verageLatency\": 12\x7d".toList := by
    refine Eq.mp (congrArg _ ?_) object
    decide +kernel
  refine ⟨spelled, ?_⟩
  exact ((ofLine_of_spells spelled).2 [(latencyKey, .null)] _ [] rfl (List.forall_mem_nil _)).1 12
    (.integer 12)

end Outcome

end LatencyLog
