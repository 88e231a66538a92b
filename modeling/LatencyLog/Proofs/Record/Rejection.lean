import LatencyLog.Proofs.Json.Grammar
import LatencyLog.Record

/-! # Which lines are records

* `Outcome.ofLine_of_read`, `Outcome.ofLine_of_unread`: the outcome of a line that is not blank.
* `Outcome.ofLine_rejects_iff`: the blank lines, the lines that are no JSON text within the limits,
  and those whose text is no object.
-/

namespace LatencyLog.Outcome

set_option autoImplicit false

open Json

/-! ## Blank lines -/

def IsFilled (line : String) : Prop := ∃ c ∈ line.toList, Text.isBlank c = false

theorem all_isBlank_iff (line : String) :
    line.toList.all Text.isBlank = true ↔ ∀ c ∈ line.toList, Text.isBlank c = true :=
  List.all_eq_true

theorem not_all_isBlank {line : String} (h : IsFilled line) :
    ¬line.toList.all Text.isBlank = true := by
  obtain ⟨c, member, solid⟩ := h
  intro all
  have blank := (all_isBlank_iff line).mp all c member
  rw [solid] at blank
  cases blank

theorem isFilled_of_not_all {line : String} (h : ¬line.toList.all Text.isBlank = true) :
    IsFilled line := by
  simpa [IsFilled] using h

theorem ofLine_of_read {line : String} (h : IsFilled line) {v : Value}
    (read : Json.read line.toList = .ok v) : ofLine line = ofValue v := by
  unfold ofLine
  rw [if_neg (not_all_isBlank h), read]

theorem ofLine_of_unread {line : String} (h : IsFilled line) {fault : Fault}
    (read : Json.read line.toList = .error fault) :
    ofLine line = .skipped (.malformed fault.message) := by
  unfold ofLine
  rw [if_neg (not_all_isBlank h), read]

/-! ## Outcomes of values -/

theorem ofMembers_cases (members : List (String × Value)) :
    ofMembers members = .skipped .missingField ∨ ofMembers members = .skipped .nonNumeric ∨
      ∃ x, ofMembers members = .sample x := by
  unfold ofMembers
  cases lastMember? latencyKey members with
  | none => exact Or.inl rfl
  | some v =>
    simp only
    cases latency? v with
    | none => exact Or.inr (Or.inl rfl)
    | some x => exact Or.inr (Or.inr ⟨x, rfl⟩)

/-- A value is not blank and not malformed, and it is no object just if the outcome says so. -/
theorem ofValue_cases (v : Value) :
    ofValue v ≠ .skipped .blank ∧ (∀ detail, ofValue v ≠ .skipped (.malformed detail)) ∧
      (ofValue v = .skipped .notAnObject ↔ v.isObject = false) := by
  cases v with
  | object members =>
    show ofMembers members ≠ _ ∧ (∀ detail, ofMembers members ≠ _) ∧ (ofMembers members = _ ↔ _)
    rcases ofMembers_cases members with missing | other | ⟨x, sample⟩
    · rw [missing]
      simp [Value.isObject]
    · rw [other]
      simp [Value.isObject]
    · rw [sample]
      simp [Value.isObject]
  | null => simp [ofValue, Value.isObject]
  | bool b => simp [ofValue, Value.isObject]
  | number n => simp [ofValue, Value.isObject]
  | text t => simp [ofValue, Value.isObject]
  | list items => simp [ofValue, Value.isObject]

theorem ofLine_eq_blank_iff (line : String) :
    ofLine line = .skipped .blank ↔ ∀ c ∈ line.toList, Text.isBlank c = true := by
  rw [← all_isBlank_iff]
  by_cases blank : line.toList.all Text.isBlank = true
  · unfold ofLine
    simp [blank]
  · have filled := isFilled_of_not_all blank
    cases read : Json.read line.toList with
    | error fault => simp [ofLine_of_unread filled read, blank]
    | ok v => simp [ofLine_of_read filled read, blank, (ofValue_cases v).1]

theorem ofLine_eq_malformed_iff {line : String} (h : IsFilled line) :
    (∃ detail, ofLine line = .skipped (.malformed detail)) ↔
      ¬∃ v, Json.read line.toList = .ok v := by
  cases read : Json.read line.toList with
  | error fault => simp [ofLine_of_unread h read]
  | ok v => simp [ofLine_of_read h read, (ofValue_cases v).2.1]

theorem ofLine_eq_notAnObject_iff {line : String} (h : IsFilled line) :
    ofLine line = .skipped .notAnObject ↔
      ∃ v, Json.read line.toList = .ok v ∧ v.isObject = false := by
  cases read : Json.read line.toList with
  | error fault => simp [ofLine_of_unread h read]
  | ok v => simp [ofLine_of_read h read, (ofValue_cases v).2.2]

/-! ## Lines by the grammar -/

/-- **The lines without a record**: the blank ones; of the others those that no derivation within
the limits derives, with at most 127 lists and objects open, surrogates in pairs and numbers in
range; and those derived as something else than an object. -/
theorem ofLine_rejects_iff (line : String) :
    (ofLine line = .skipped .blank ↔ ∀ c ∈ line.toList, Text.isBlank c = true) ∧
    ((∃ c ∈ line.toList, Text.isBlank c = false) →
      ((∃ detail, ofLine line = .skipped (.malformed detail)) ↔
        ∀ t : Tree .item, t.text = line.toList → ¬t.Within 127) ∧
      (ofLine line = .skipped .notAnObject ↔
        ∃ t : Tree .item, t.text = line.toList ∧ t.Within 127 ∧ t.isObject = false)) := by
  refine ⟨ofLine_eq_blank_iff line, fun filled => ⟨?_, ?_⟩⟩
  · rw [ofLine_eq_malformed_iff filled]
    constructor
    · intro unread t derived within
      obtain ⟨v, read, -⟩ := exists_tree_iff_read.mp ⟨t, derived, within, rfl⟩
      exact unread ⟨v, read⟩
    · rintro none ⟨v, read⟩
      obtain ⟨t, derived, within, -⟩ := exists_tree_iff_read.mpr ⟨v, read, rfl⟩
      exact none t derived within
  · rw [ofLine_eq_notAnObject_iff filled]
    exact exists_tree_iff_read.symm

/-- A list that holds the code of a high surrogate alone is derived, but not within the limits. -/
theorem ofLine_rejects_lone_surrogate :
    let line := "[\"\\ud800\"]"
    (∃ c ∈ line.toList, Text.isBlank c = false) ∧ (∃ t : Tree .item, t.text = line.toList) ∧
      ∀ t : Tree .item, t.text = line.toList → ¬t.Within 127 := by
  intro line
  have filled : ∃ c ∈ line.toList, Text.isBlank c = false := ⟨'[', by decide, by decide⟩
  have derived : ∃ t : Tree .item, t.text = line.toList := by
    let gap : Gap := ⟨[], State.isGap_nil⟩
    let quotation : Quotation := [.code ⟨13, false⟩ ⟨8, false⟩ ⟨0, false⟩ ⟨0, false⟩]
    refine ⟨.item gap (.list (.lastItem (.item gap (.quotation quotation) gap))) gap, ?_⟩
    decide +kernel
  have malformed : ofLine line =
      .skipped (.malformed "unexpected end of hex escape at line 1 column 9") := by
    decide +kernel
  exact ⟨filled, derived, ((ofLine_rejects_iff line).2 filled).1.mp ⟨_, malformed⟩⟩

end LatencyLog.Outcome
