import LatencyLog.Proofs.Json.Extension
import LatencyLog.Proofs.Record.Members
import LatencyLog.Proofs.Record.Rejection

/-! # Records cut off and records run together

* `Outcome.isRecord`: the outcomes of lines that hold an object, with a latency or without one.
* `Outcome.exists_object_of_isRecord`: such a line is read as an object.
* `Outcome.exists_closing_brace_of_spells`: an object ends with its brace and a gap after that.
* `Outcome.ofLine_cut_or_extended`: a record without its closing brace is blank or malformed, and a
  record with more after it is malformed or, after a gap, the same.
-/

namespace LatencyLog.Outcome

set_option autoImplicit false

open Json

/-- The line holds an object, with a latency or without one. -/
def isRecord : Outcome → Bool
  | sample _ => true
  | skipped .missingField => true
  | skipped .nonNumeric => true
  | skipped .blank => false
  | skipped (.malformed _) => false
  | skipped .notAnObject => false

/-! ## Lines that are read or not -/

theorem exists_object_of_isRecord {line : String} (h : (ofLine line).isRecord = true) :
    ∃ members, Json.read line.toList = .ok (.object members) := by
  by_cases blank : line.toList.all Text.isBlank = true
  · rw [ofLine, if_pos blank] at h
    cases h
  · have filled := isFilled_of_not_all blank
    cases read : Json.read line.toList with
    | error fault =>
      rw [ofLine_of_unread filled read] at h
      cases h
    | ok v =>
      rw [ofLine_of_read filled read] at h
      cases v with
      | object members => exact ⟨members, rfl⟩
      | null => cases h
      | bool b => cases h
      | number n => cases h
      | text t => cases h
      | list items => cases h

theorem isRecord_of_sample {line : String} {x : Int128} (h : ofLine line = .sample x) :
    (ofLine line).isRecord = true := by
  rw [h]
  rfl

theorem malformed_of_unread {line : String} (filled : IsFilled line)
    (unread : ∀ v, Json.read line.toList ≠ .ok v) :
    ∃ detail, ofLine line = .skipped (.malformed detail) := by
  apply (ofLine_eq_malformed_iff filled).mpr
  rintro ⟨v, read⟩
  exact unread v read

theorem blank_or_malformed_of_unread {line : String}
    (unread : ∀ v, Json.read line.toList ≠ .ok v) :
    ofLine line = .skipped .blank ∨ ∃ detail, ofLine line = .skipped (.malformed detail) := by
  by_cases blank : line.toList.all Text.isBlank = true
  · exact Or.inl (if_pos blank)
  · exact Or.inr (malformed_of_unread (isFilled_of_not_all blank) unread)

theorem isFilled_of_object {line : String} {members : List (String × Value)}
    (read : Json.read line.toList = .ok (.object members)) : IsFilled line :=
  ⟨'\x7b', mem_of_spells_object (read_eq_ok_iff_spells.mp read), by decide⟩

/-! ## The closing brace -/

theorem exists_closing_brace {room : Nat} {members : List (String × Value)} {cs : List Char}
    (h : Spells room (.value (.object members)) cs) : ∃ inner, cs = inner ++ ['\x7d'] := by
  cases h with
  | noMembers room gap => exact ⟨_, (List.cons_append ..).symm⟩
  | object inner => exact ⟨_, (List.cons_append ..).symm⟩

theorem exists_closing_brace_of_spells {room : Nat} {members : List (String × Value)}
    {cs : List Char} (h : Spells room (.item (.object members)) cs) :
    ∃ front gap, cs = front ++ '\x7d' :: gap ∧ State.IsGap gap := by
  cases h with
  | @item _ _ before inner after _ object hafter =>
    obtain ⟨front, rfl⟩ := exists_closing_brace object
    exact ⟨before ++ front, after, by simp, hafter⟩

/-! ## Records -/

/-- **A record cut off or run together with more is no record.** It ends with a closing brace and a
gap. What is left of it without this brace is blank or malformed. With more after it the line is
malformed, unless that is a gap too: then the outcome is the same. -/
theorem ofLine_cut_or_extended {line : String} (h : (ofLine line).isRecord = true) :
    (∃ front gap, line.toList = front ++ '\x7d' :: gap ∧ ∀ c ∈ gap, State.isSpace c = true) ∧
    (∀ cut rest : String, line = cut ++ rest → '\x7d' ∈ rest.toList →
      ofLine cut = .skipped .blank ∨ ∃ detail, ofLine cut = .skipped (.malformed detail)) ∧
    ∀ more : String,
      ((∃ c ∈ more.toList, State.isSpace c = false) →
        ∃ detail, ofLine (line ++ more) = .skipped (.malformed detail)) ∧
      ((∀ c ∈ more.toList, State.isSpace c = true) → ofLine (line ++ more) = ofLine line) := by
  obtain ⟨members, read⟩ := exists_object_of_isRecord h
  have filled := isFilled_of_object read
  refine ⟨exists_closing_brace_of_spells (read_eq_ok_iff_spells.mp read), ?_, fun more => ?_⟩
  · rintro cut rest rfl brace
    apply blank_or_malformed_of_unread
    intro v cutRead
    rw [String.toList_append] at read
    have gap := isGap_of_read_append cutRead read
    exact absurd (gap _ brace) (by decide)
  · have longer : ∀ v, Json.read (line ++ more).toList = .ok v ↔
        State.IsGap more.toList ∧ v = .object members := by
      intro v
      rw [String.toList_append]
      exact read_append_of_object read
    obtain ⟨c, member, solid⟩ := filled
    have filledLonger : IsFilled (line ++ more) := by
      refine ⟨c, ?_, solid⟩
      rw [String.toList_append]
      exact List.mem_append_left _ member
    constructor
    · rintro ⟨d, inside, notSpace⟩
      apply malformed_of_unread filledLonger
      intro v read'
      have space := ((longer v).mp read').1 d inside
      rw [notSpace] at space
      cases space
    · intro gap
      have read' := (longer _).mpr ⟨gap, rfl⟩
      rw [ofLine_of_read filledLonger read', ofLine_of_read ⟨c, member, solid⟩ read]

/-- A record cut within a pair of surrogates, run together with another record, and with a gap after
it. -/
theorem ofLine_cut_within_pair :
    let line := "\x7b\"x\": \"\\ud83d\\ude00\", \"AverageLatency\": [1e5]\x7d\t"
    let cut := "\x7b\"x\": \"\\ud83d"
    let other := "\x7b\"AverageLatency\": 7\x7d"
    (ofLine line).isRecord = true ∧
      (ofLine cut = .skipped .blank ∨ ∃ detail, ofLine cut = .skipped (.malformed detail)) ∧
      (∃ detail, ofLine (line ++ other) = .skipped (.malformed detail)) ∧
      ofLine (line ++ "\r\n") = .skipped .nonNumeric := by
  intro line cut other
  have outcome : ofLine line = .skipped .nonNumeric := by decide +kernel
  have record : (ofLine line).isRecord = true := by rw [outcome]; rfl
  obtain ⟨-, cuts, longer⟩ := ofLine_cut_or_extended record
  refine ⟨record, ?_, ?_, ?_⟩
  · exact cuts cut "\\ude00\", \"AverageLatency\": [1e5]\x7d\t" (by decide +kernel)
      (by decide +kernel)
  · exact (longer other).1 ⟨'7', by decide +kernel, by decide⟩
  · rw [(longer "\r\n").2 (List.all_eq_true.mp (by decide)), outcome]

end LatencyLog.Outcome
