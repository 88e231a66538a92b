import LatencyLog.LineStream
import LatencyLog.Proofs.Utf8.Encoding
import Mathlib.Data.Nat.Basic
import Mathlib.Order.Basic

/-! # Where bytes stop being a text

Bytes that are no UTF-8 text have a longest prefix that is one, and what follows it either ends
within the encoding of a character or goes on as none does.

* `IsLongestPrefix`: the longest prefix of a list that has a property.
* `Begun.Unfinished`: bytes that may follow within a sequence and do not end it.
* `Utf8.BeginsCharacter`: bytes that begin the encoding of a character and do not end it.
* `Utf8.decodeFrom_begun_cases`: a sequence begun is completed, left unfinished or refused.
* `LineStream.classify_locates_fault`: the fault of a line that is no text.
-/

namespace LatencyLog

set_option autoImplicit false

/-! ## Longest prefixes -/

/-- The longest prefix of a list that has a property. -/
structure IsLongestPrefix {α : Type} (P : List α → Prop) (front whole : List α) : Prop where
  isPrefix : front <+: whole
  holds : P front
  length_le : ∀ other, other <+: whole → P other → other.length ≤ front.length

/-- The longest prefix is found where the next element takes the property away, if no longer list
gets it back. -/
theorem isLongestPrefix_of_next {α : Type} {P : List α → Prop} {front rest : List α} {a : α}
    (closed : ∀ front more, P (front ++ more) → P front) (holds : P front)
    (next : ¬P (front ++ [a])) : IsLongestPrefix P front (front ++ a :: rest) := by
  refine ⟨List.prefix_append _ _, holds, ?_⟩
  intro other begins property
  by_contra longer
  have reaches : front ++ [a] <+: front ++ a :: rest := ⟨rest, by simp⟩
  obtain ⟨more, rfl⟩ : front ++ [a] <+: other := by
    apply List.prefix_of_prefix_length_le reaches begins
    simp only [List.length_append, List.length_singleton]
    omega
  exact next (closed _ more property)

namespace Utf8

/-! ## Unfinished sequences -/

/-- The bytes may follow within the sequence begun, and do not end it. -/
def Begun.Unfinished (s : Begun) (run : List UInt8) : Prop :=
  ∃ more c, more ≠ [] ∧ s.Completes (run ++ more) c

/-- Some byte may come next. -/
structure Begun.HasRoom (s : Begun) : Prop where
  low_le : s.low ≤ s.high
  high_lt : s.high < 256

theorem Begun.hasRoom_extend (s : Begun) (b : UInt8) (more : Nat) : (s.extend b more).HasRoom :=
  ⟨by simp [Begun.extend], by simp [Begun.extend]⟩

theorem hasRoom_of_begins {b bits low high more : Nat} (h : lead b = .begins bits low high more)
    (start seen : Nat) : Begun.HasRoom ⟨start, seen, bits, low, high, more⟩ := by
  cases leadRange_of_begins h with
  | two => exact ⟨by simp, by simp⟩
  | three => constructor <;> dsimp only <;> split_ifs <;> omega
  | four => constructor <;> dsimp only <;> split_ifs <;> omega

/-- A sequence begun can be completed: by the least byte that may come next, over and over. -/
theorem Begun.HasRoom.exists_completes {s : Begun} (room : s.HasRoom) :
    ∃ bytes c, s.Completes bytes c := by
  obtain ⟨start, seen, bits, low, high, more⟩ := s
  obtain ⟨lower, upper⟩ := room
  have least : (UInt8.ofNat low).toNat = low := toNat_byte_of_lt (lower.trans_lt upper)
  induction more generalizing seen bits low high with
  | zero =>
    refine ⟨[UInt8.ofNat low], _, completes_zero_iff.mpr ⟨_, rfl, least.ge, ?_, rfl⟩⟩
    exact least.le.trans lower
  | succ more ih =>
    obtain ⟨bytes, c, completes⟩ :=
      ih (seen + 1) (bits * 64 + ((UInt8.ofNat low).toNat - 0x80)) 0x80 0xBF (by simp) (by simp) rfl
    refine ⟨_ :: bytes, c, completes_succ_iff.mpr ⟨_, bytes, rfl, least.ge, ?_, completes⟩⟩
    exact least.le.trans lower

theorem Begun.HasRoom.unfinished_nil {s : Begun} (room : s.HasRoom) : s.Unfinished [] := by
  obtain ⟨bytes, c, completes⟩ := room.exists_completes
  refine ⟨bytes, c, ?_, completes⟩
  rintro rfl
  exact completes

theorem Begun.unfinished_cons_iff {s : Begun} {b : UInt8} {run : List UInt8} :
    s.Unfinished (b :: run) ↔
      s.low ≤ b.toNat ∧ b.toNat ≤ s.high ∧
        ∃ more, s.more = more + 1 ∧ (s.extend b more).Unfinished run := by
  constructor
  · rintro ⟨others, c, some, lower, upper, h⟩
    refine ⟨lower, upper, ?_⟩
    cases hmore : s.more with
    | zero =>
      simp only [hmore] at h
      exact absurd (List.append_eq_nil_iff.mp h.1).2 some
    | succ more =>
      simp only [hmore] at h
      exact ⟨more, rfl, others, c, some, h⟩
  · rintro ⟨lower, upper, more, hmore, others, c, some, h⟩
    refine ⟨others, c, some, lower, upper, ?_⟩
    simp only [hmore]
    exact h

/-- **A sequence begun is completed, left unfinished or refused.** Where it is refused, the fault
counts the bytes that could still be completed. -/
theorem decodeFrom_begun_cases {s : Begun} (room : s.HasRoom) (index : Nat) (done : List Char)
    (rest : List UInt8) :
    (∃ bytes tail c, rest = bytes ++ tail ∧ s.Completes bytes c) ∨
    (s.Unfinished rest ∧ decodeFrom index (some s) done rest = .error (.incomplete s.start)) ∨
    (∃ run b tail, rest = run ++ b :: tail ∧ s.Unfinished run ∧ ¬s.Unfinished (run ++ [b]) ∧
      decodeFrom index (some s) done rest = .error (.invalid s.start (s.seen + run.length))) := by
  induction rest generalizing index s with
  | nil => exact .inr (.inl ⟨room.unfinished_nil, rfl⟩)
  | cons b rest ih =>
    by_cases range : s.low ≤ b.toNat ∧ b.toNat ≤ s.high
    · obtain ⟨lower, upper⟩ := range
      cases hmore : s.more with
      | zero =>
        refine .inl ⟨[b], rest, Char.ofNat (s.bits * 64 + (b.toNat - 0x80)), rfl, lower, upper, ?_⟩
        simp only [hmore, and_self]
      | succ more =>
        rw [decodeFrom_begun_extend lower upper hmore]
        rcases ih (s.hasRoom_extend b more) (index + 1) with
          ⟨bytes, tail, c, rfl, completes⟩ | ⟨unfinished, fault⟩ |
          ⟨run, b', tail, rfl, unfinished, refused, fault⟩
        · refine .inl ⟨b :: bytes, tail, c, rfl, lower, upper, ?_⟩
          simpa only [hmore] using completes
        · exact .inr (.inl
            ⟨Begun.unfinished_cons_iff.mpr ⟨lower, upper, more, hmore, unfinished⟩, fault⟩)
        · refine .inr (.inr ⟨b :: run, b', tail, rfl,
            Begun.unfinished_cons_iff.mpr ⟨lower, upper, more, hmore, unfinished⟩, ?_, ?_⟩)
          · intro continued
            obtain ⟨-, -, more', hmore', unfinished'⟩ := Begun.unfinished_cons_iff.mp continued
            obtain rfl : more = more' := by omega
            exact refused unfinished'
          · rw [fault, List.length_cons, Nat.add_comm run.length, ← Nat.add_assoc]
            rfl
    · refine .inr (.inr ⟨[], b, rest, rfl, room.unfinished_nil, ?_, decodeFrom_begun_refused range⟩)
      intro continued
      obtain ⟨lower, upper, -⟩ := Begun.unfinished_cons_iff.mp continued
      exact range ⟨lower, upper⟩

/-! ## Characters begun -/

/-- The bytes are the encoding of a text. -/
def IsEncoded (bytes : List UInt8) : Prop := ∃ text, bytes = encode text

/-- The bytes begin the encoding of a character and do not end it. -/
def BeginsCharacter (bytes : List UInt8) : Prop :=
  ∃ c more, more ≠ [] ∧ String.utf8EncodeChar c = bytes ++ more

theorem beginsCharacter_nil : BeginsCharacter [] :=
  ⟨'a', String.utf8EncodeChar 'a', String.utf8EncodeChar_ne_nil, rfl⟩

theorem beginsCharacter_of_append (front more : List UInt8) (h : BeginsCharacter (front ++ more)) :
    BeginsCharacter front := by
  obtain ⟨c, others, some, encoded⟩ := h
  refine ⟨c, more ++ others, ?_, by rw [encoded, List.append_assoc]⟩
  simp [some]

theorem beginsCharacter_cons_iff {b : UInt8} {bits low high more : Nat}
    (begins : lead b.toNat = .begins bits low high more) (start seen : Nat) (run : List UInt8) :
    BeginsCharacter (b :: run) ↔ Begun.Unfinished ⟨start, seen, bits, low, high, more⟩ run := by
  constructor
  · rintro ⟨c, others, some, encoded⟩
    rcases completes_of_utf8EncodeChar encoded with ⟨ascii, -⟩ | ⟨_, _, _, _, begins', completes⟩
    · rw [begins] at ascii
      cases ascii
    · rw [begins, Lead.begins.injEq] at begins'
      obtain ⟨rfl, rfl, rfl, rfl⟩ := begins'
      exact ⟨others, c, some, completes start seen⟩
  · rintro ⟨others, c, some, completes⟩
    exact ⟨c, others, some, utf8EncodeChar_of_completes begins completes⟩

theorem not_beginsCharacter_of_refused {b : UInt8} (refused : lead b.toNat = .refused)
    (run : List UInt8) : ¬BeginsCharacter (b :: run) := by
  rintro ⟨c, others, -, encoded⟩
  rcases completes_of_utf8EncodeChar encoded with ⟨ascii, -⟩ | ⟨_, _, _, _, begins, -⟩
  · rw [refused] at ascii
    cases ascii
  · rw [refused] at begins
    cases begins

/-! ## The longest prefix that is a text -/

/-- A text with more bytes after it is a longer text only if a character is next. -/
theorem eq_nil_of_isEncoded_append {text : List Char} {rest : List UInt8} (stuck : IsStuck rest)
    (h : IsEncoded (encode text ++ rest)) : rest = [] := by
  obtain ⟨whole, encoded⟩ := h
  have decoded := decode_encode whole
  rw [← encoded, decode, decodeFrom_encode_append] at decoded
  exact stuck.eq_nil decoded

theorem isLongestPrefix_encode (text : List Char) {rest : List UInt8} (stuck : IsStuck rest) :
    IsLongestPrefix IsEncoded (encode text) (encode text ++ rest) := by
  refine ⟨List.prefix_append _ _, ⟨text, rfl⟩, ?_⟩
  intro other begins encoded
  by_contra longer
  obtain ⟨more, rfl⟩ := List.prefix_of_prefix_length_le (List.prefix_append _ _) begins
    (Nat.le_of_not_le longer)
  have next : more <+: rest := (List.prefix_append_right_inj _).mp begins
  have nothing : more = [] :=
    eq_nil_of_isEncoded_append (fun c first => stuck c (first.trans next)) encoded
  rw [nothing, List.append_nil] at longer
  exact longer le_rfl

/-! ## Faults -/

/-- Where the bytes stop being a text. -/
def Fault.index : Fault → Nat
  | invalid index _ => index
  | incomplete index => index

/-- Bytes that no character can be taken from either end within one, or some of them begin one that
the next byte does not continue. -/
theorem decodeFrom_fault {rest : List UInt8} (some : rest ≠ []) (stuck : IsStuck rest)
    (index : Nat) (done : List Char) :
    (BeginsCharacter rest ∧ decodeFrom index none done rest = .error (.incomplete index)) ∨
    (¬BeginsCharacter rest ∧ ∃ run, IsLongestPrefix BeginsCharacter run rest ∧
      decodeFrom index none done rest = .error (.invalid index (max 1 run.length))) := by
  obtain ⟨b, rest, rfl⟩ := List.exists_cons_of_ne_nil some
  rw [decodeFrom]
  cases hlead : lead b.toNat with
  | character c =>
    have first : String.utf8EncodeChar c <+: b :: rest := by
      rw [utf8EncodeChar_of_character hlead]
      exact ⟨rest, rfl⟩
    exact absurd first (stuck c)
  | refused =>
    exact .inr ⟨not_beginsCharacter_of_refused hlead rest, [],
      isLongestPrefix_of_next beginsCharacter_of_append beginsCharacter_nil
        (not_beginsCharacter_of_refused hlead []), rfl⟩
  | begins bits low high more =>
    have begins_iff := beginsCharacter_cons_iff hlead index 1
    simp only
    rcases decodeFrom_begun_cases (hasRoom_of_begins hlead index 1) (index + 1) done rest with
      ⟨bytes, tail, c, rfl, completes⟩ | ⟨unfinished, fault⟩ |
      ⟨run, b', tail, rfl, unfinished, refused, fault⟩
    · have first : String.utf8EncodeChar c <+: b :: (bytes ++ tail) := by
        rw [utf8EncodeChar_of_completes hlead completes]
        exact ⟨tail, rfl⟩
      exact absurd first (stuck c)
    · exact .inl ⟨(begins_iff rest).mpr unfinished, fault⟩
    · have next : ¬BeginsCharacter (b :: run ++ [b']) := (begins_iff _).not.mpr refused
      refine .inr ⟨fun whole => next ?_, b :: run, ?_, ?_⟩
      · exact beginsCharacter_of_append _ tail (by simpa using whole)
      · exact isLongestPrefix_of_next beginsCharacter_of_append ((begins_iff run).mpr unfinished)
          next
      · rw [fault, List.length_cons, Nat.max_eq_right (by omega), Nat.add_comm]

end Utf8

namespace LineStream

open Utf8

theorem classify_of_fault {line : List UInt8} {fault : Utf8.Fault}
    (h : Utf8.decode line = .error fault) :
    classify line = .error ⟨.invalidData, fault.message⟩ := by
  rw [classify, h]

/-- **A line that is no text is refused where it stops being one.** The fault stands after the
longest prefix that encodes a text. It says that the line is incomplete if what follows begins a
character, and else it counts the longest prefix of what follows that does, or one byte. -/
theorem classify_locates_fault (line : List UInt8) :
    (∀ text, Utf8.decode line = .ok text ↔ line = encode text) ∧
    ((∀ text, line ≠ encode text) → ∃ fault front rest,
      Utf8.decode line = .error fault ∧ classify line = .error ⟨.invalidData, fault.message⟩ ∧
      line = front ++ rest ∧ IsLongestPrefix IsEncoded front line ∧
      fault.index = front.length ∧
      (fault = .incomplete front.length ↔ BeginsCharacter rest) ∧
      (¬BeginsCharacter rest → ∃ run, IsLongestPrefix BeginsCharacter run rest ∧
        fault = .invalid front.length (max 1 run.length))) := by
  refine ⟨fun text => decode_eq_ok_iff, fun noText => ?_⟩
  obtain ⟨text, rest, rfl, stuck⟩ := exists_encode_append line
  have some : rest ≠ [] := by
    rintro rfl
    exact noText text (List.append_nil _)
  have decoded : Utf8.decode (encode text ++ rest) =
      decodeFrom (encode text).length none text.reverse rest := by
    rw [Utf8.decode, decodeFrom_encode_append, Nat.zero_add, List.append_nil]
  have longest := isLongestPrefix_encode text stuck
  rcases decodeFrom_fault some stuck (encode text).length text.reverse with
    ⟨begins, fault⟩ | ⟨ends, run, counted, fault⟩
  · rw [← decoded] at fault
    exact ⟨_, _, rest, fault, classify_of_fault fault, rfl, longest, rfl,
      ⟨fun _ => begins, fun _ => rfl⟩, fun ends => absurd begins ends⟩
  · rw [← decoded] at fault
    refine ⟨_, _, rest, fault, classify_of_fault fault, rfl, longest, rfl, ?_,
      fun _ => ⟨run, counted, rfl⟩⟩
    constructor
    · rintro ⟨⟩
    · intro begins
      exact absurd begins ends

/-- A character, and two bytes of another that the last byte does not continue. -/
theorem classify_locates_refused_third_byte :
    let line : List UInt8 := [0x61, 0xE2, 0x82, 0x28]
    (∀ text, line ≠ encode text) ∧
      classify line =
        .error ⟨.invalidData, "invalid utf-8 sequence of 2 bytes from index 1"⟩ ∧
      IsLongestPrefix IsEncoded [0x61] line ∧ ¬BeginsCharacter [0xE2, 0x82, 0x28] ∧
      ∃ run, IsLongestPrefix BeginsCharacter run [0xE2, 0x82, 0x28] ∧ run.length = 2 := by
  intro line
  have refused : Utf8.decode line = .error (.invalid 1 2) := rfl
  obtain ⟨accepts, locates⟩ := classify_locates_fault line
  have noText : ∀ text, line ≠ encode text := by
    intro text encoded
    have decoded := (accepts text).mpr encoded
    rw [refused] at decoded
    cases decoded
  obtain ⟨fault, front, rest, decoded, classified, split, longest, index, incomplete, counted⟩ :=
    locates noText
  rw [refused, Except.error.injEq] at decoded
  subst decoded
  have split : [0x61] ++ [0xE2, 0x82, 0x28] = front ++ rest := split
  obtain ⟨rfl, rfl⟩ := List.append_inj split index
  have ends : ¬BeginsCharacter [0xE2, 0x82, 0x28] := by
    intro begins
    cases incomplete.mpr begins
  obtain ⟨run, longestRun, same⟩ := counted ends
  rw [Fault.invalid.injEq] at same
  exact ⟨noText, classified.trans (by decide), longest, ends, run, longestRun, by omega⟩

end LineStream

end LatencyLog
