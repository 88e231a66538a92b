import LatencyLog.Text.Utf8
import Mathlib.Data.List.Basic
import Mathlib.Data.Nat.Init
import Mathlib.Tactic.SplitIfs

/-! # Decoding undoes encoding

`Utf8.encode` writes characters as UTF-8, and `decode_eq_ok_iff` says that `Utf8.decode` accepts
exactly what it writes.

* `leadRange_of_begins`: the three ranges of first bytes that begin a longer sequence.
* `Begun.Completes`: the bytes that may follow within a sequence, and the character they make.
* `completes_of_utf8EncodeChar`, `utf8EncodeChar_of_completes`: a first byte and its completions are
  the encodings of characters.
* `exists_encode_append`: bytes as a text and what no further character can be taken from.
-/

namespace LatencyLog.Utf8

set_option autoImplicit false

/-- The bytes that encode characters. -/
def encode (text : List Char) : List UInt8 := text.flatMap String.utf8EncodeChar

theorem encode_nil : encode [] = [] := rfl

theorem encode_cons (c : Char) (text : List Char) :
    encode (c :: text) = String.utf8EncodeChar c ++ encode text := List.flatMap_cons

/-! ## First bytes -/

theorem lead_of_ascii {b : Nat} (h : b < 0x80) : lead b = .character (Char.ofNat b) := by
  rw [lead, if_pos h]

theorem lead_of_two {b : Nat} (lower : 0xC2 ≤ b) (upper : b < 0xE0) :
    lead b = .begins (b - 0xC0) 0x80 0xBF 0 := by
  rw [lead, if_neg (by omega), if_neg (by omega), if_pos upper]

theorem lead_of_three {b : Nat} (lower : 0xE0 ≤ b) (upper : b < 0xF0) :
    lead b = .begins (b - 0xE0) (if b = 0xE0 then 0xA0 else 0x80)
      (if b = 0xED then 0x9F else 0xBF) 1 := by
  rw [lead, if_neg (by omega), if_neg (by omega), if_neg (by omega), if_pos upper]
  by_cases first : b = 0xE0
  · subst first
    rfl
  · by_cases surrogate : b = 0xED
    · subst surrogate
      rfl
    · simp only [first, surrogate, if_false]

theorem lead_of_four {b : Nat} (lower : 0xF0 ≤ b) (upper : b < 0xF5) :
    lead b = .begins (b - 0xF0) (if b = 0xF0 then 0x90 else 0x80)
      (if b = 0xF4 then 0x8F else 0xBF) 2 := by
  rw [lead, if_neg (by omega), if_neg (by omega), if_neg (by omega), if_neg (by omega),
    if_neg (by omega), if_neg (by omega)]
  by_cases first : b = 0xF0
  · subst first
    rfl
  · by_cases last : b = 0xF4
    · subst last
      rfl
    · have below : b < 0xF4 := by omega
      simp only [first, last, below, if_false, if_true]

theorem lead_refused_of_lt {b : Nat} (lower : 0x80 ≤ b) (upper : b < 0xC2) :
    lead b = .refused := by
  rw [lead, if_neg (by omega), if_pos upper]

theorem lead_refused_of_le {b : Nat} (lower : 0xF5 ≤ b) : lead b = .refused := by
  rw [lead, if_neg (by omega), if_neg (by omega), if_neg (by omega), if_neg (by omega),
    if_neg (by omega), if_neg (by omega), if_neg (by omega), if_neg (by omega), if_neg (by omega)]

theorem character_range_of_lead {b : Nat} {c : Char} (h : lead b = .character c) :
    b < 0x80 ∧ c = Char.ofNat b := by
  by_cases ascii : b < 0x80
  · rw [lead_of_ascii ascii] at h
    cases h
    exact ⟨ascii, rfl⟩
  · rw [lead, if_neg ascii] at h
    split_ifs at h

/-- The first bytes that begin a longer sequence, and what they tell of it. -/
inductive LeadRange (b : Nat) : Nat → Nat → Nat → Nat → Prop
  | two : 0xC2 ≤ b → b < 0xE0 → LeadRange b (b - 0xC0) 0x80 0xBF 0
  | three : 0xE0 ≤ b → b < 0xF0 → LeadRange b (b - 0xE0) (if b = 0xE0 then 0xA0 else 0x80)
      (if b = 0xED then 0x9F else 0xBF) 1
  | four : 0xF0 ≤ b → b < 0xF5 → LeadRange b (b - 0xF0) (if b = 0xF0 then 0x90 else 0x80)
      (if b = 0xF4 then 0x8F else 0xBF) 2

theorem leadRange_of_begins {b bits low high more : Nat}
    (h : lead b = .begins bits low high more) : LeadRange b bits low high more := by
  rcases (by omega : b < 0x80 ∨ (0x80 ≤ b ∧ b < 0xC2) ∨ (0xC2 ≤ b ∧ b < 0xE0) ∨
    (0xE0 ≤ b ∧ b < 0xF0) ∨ (0xF0 ≤ b ∧ b < 0xF5) ∨ 0xF5 ≤ b) with
    ascii | ⟨lower, upper⟩ | ⟨lower, upper⟩ | ⟨lower, upper⟩ | ⟨lower, upper⟩ | lower
  · rw [lead_of_ascii ascii] at h
    cases h
  · rw [lead_refused_of_lt lower upper] at h
    cases h
  · rw [lead_of_two lower upper, Lead.begins.injEq] at h
    obtain ⟨rfl, rfl, rfl, rfl⟩ := h
    exact .two lower upper
  · rw [lead_of_three lower upper, Lead.begins.injEq] at h
    obtain ⟨rfl, rfl, rfl, rfl⟩ := h
    exact .three lower upper
  · rw [lead_of_four lower upper, Lead.begins.injEq] at h
    obtain ⟨rfl, rfl, rfl, rfl⟩ := h
    exact .four lower upper
  · rw [lead_refused_of_le lower] at h
    cases h

/-! ## Sequences begun -/

/-- A sequence begun, with one more byte and `more` others to follow the next. -/
def Begun.extend (s : Begun) (b : UInt8) (more : Nat) : Begun :=
  ⟨s.start, s.seen + 1, s.bits * 64 + (b.toNat - 0x80), 0x80, 0xBF, more⟩

/-- The bytes end the sequence begun, which then encodes the character. -/
def Begun.Completes : Begun → List UInt8 → Char → Prop
  | _, [], _ => False
  | s, b :: rest, c =>
    s.low ≤ b.toNat ∧ b.toNat ≤ s.high ∧
      match s.more with
      | 0 => rest = [] ∧ c = Char.ofNat (s.bits * 64 + (b.toNat - 0x80))
      | more + 1 => (s.extend b more).Completes rest c

theorem Begun.completes_zero_iff {start seen bits low high : Nat} {bytes : List UInt8} {c : Char} :
    Begun.Completes ⟨start, seen, bits, low, high, 0⟩ bytes c ↔
      ∃ b, bytes = [b] ∧ low ≤ b.toNat ∧ b.toNat ≤ high ∧
        c = Char.ofNat (bits * 64 + (b.toNat - 0x80)) := by
  cases bytes with
  | nil => simp [Begun.Completes]
  | cons b rest =>
    simp only [Begun.Completes, List.cons.injEq]
    constructor
    · rintro ⟨above, under, rfl, hc⟩
      exact ⟨b, ⟨rfl, rfl⟩, above, under, hc⟩
    · rintro ⟨_, ⟨rfl, rfl⟩, above, under, hc⟩
      exact ⟨above, under, rfl, hc⟩

theorem Begun.completes_succ_iff {start seen bits low high more : Nat} {bytes : List UInt8}
    {c : Char} :
    Begun.Completes ⟨start, seen, bits, low, high, more + 1⟩ bytes c ↔
      ∃ b rest, bytes = b :: rest ∧ low ≤ b.toNat ∧ b.toNat ≤ high ∧
        Begun.Completes ⟨start, seen + 1, bits * 64 + (b.toNat - 0x80), 0x80, 0xBF, more⟩
          rest c := by
  cases bytes with
  | nil => simp [Begun.Completes]
  | cons b rest =>
    simp only [Begun.Completes, Begun.extend, List.cons.injEq]
    constructor
    · rintro ⟨above, under, h⟩
      exact ⟨b, rest, ⟨rfl, rfl⟩, above, under, h⟩
    · rintro ⟨_, _, ⟨rfl, rfl⟩, above, under, h⟩
      exact ⟨above, under, h⟩

/-! ## Encodings of characters -/

theorem toNat_ofNat_of_valid {n : Nat} (h : n.isValidChar) : (Char.ofNat n).toNat = n := by
  rw [Char.ofNat, dif_pos h]
  rfl

theorem toNat_byte_of_lt {n : Nat} (h : n < 256) : (UInt8.ofNat n).toNat = n := by
  rw [UInt8.toNat_ofNat', Nat.mod_eq_of_lt (by omega)]

theorem byte_eq_of_toNat_eq {n : Nat} {b : UInt8} (h : n = b.toNat) : UInt8.ofNat n = b := by
  rw [h, UInt8.ofNat_toNat]

theorem utf8EncodeChar_of_one {v : Nat} (upper : v < 0x80) :
    String.utf8EncodeChar (Char.ofNat v) = [UInt8.ofNat v] := by
  have value := toNat_ofNat_of_valid (n := v) (by unfold Nat.isValidChar; omega)
  simp only [String.utf8EncodeChar, Char.toNat_val, value]
  rw [if_pos (by omega)]

theorem utf8EncodeChar_of_two {v : Nat} (lower : 0x80 ≤ v) (upper : v ≤ 0x7FF) :
    String.utf8EncodeChar (Char.ofNat v) =
      [UInt8.ofNat (v / 64 + 0xC0), UInt8.ofNat (v % 64 + 0x80)] := by
  have value := toNat_ofNat_of_valid (n := v) (by unfold Nat.isValidChar; omega)
  simp only [String.utf8EncodeChar, Char.toNat_val, value]
  rw [if_neg (by omega), if_pos upper, Nat.mod_eq_of_lt (a := v / 64) (by omega)]

theorem utf8EncodeChar_of_three {v : Nat} (valid : v.isValidChar) (lower : 0x800 ≤ v)
    (upper : v ≤ 0xFFFF) :
    String.utf8EncodeChar (Char.ofNat v) =
      [UInt8.ofNat (v / 4096 + 0xE0), UInt8.ofNat (v / 64 % 64 + 0x80),
        UInt8.ofNat (v % 64 + 0x80)] := by
  simp only [String.utf8EncodeChar, Char.toNat_val, toNat_ofNat_of_valid valid]
  rw [if_neg (by omega), if_neg (by omega), if_pos upper,
    Nat.mod_eq_of_lt (a := v / 4096) (by omega)]

theorem utf8EncodeChar_of_four {v : Nat} (lower : 0x10000 ≤ v) (upper : v < 0x110000) :
    String.utf8EncodeChar (Char.ofNat v) =
      [UInt8.ofNat (v / 262144 + 0xF0), UInt8.ofNat (v / 4096 % 64 + 0x80),
        UInt8.ofNat (v / 64 % 64 + 0x80), UInt8.ofNat (v % 64 + 0x80)] := by
  have value := toNat_ofNat_of_valid (n := v) (by unfold Nat.isValidChar; omega)
  simp only [String.utf8EncodeChar, Char.toNat_val, value]
  rw [if_neg (by omega), if_neg (by omega), if_neg (by omega),
    Nat.mod_eq_of_lt (a := v / 262144) (by omega)]

theorem completes_of_utf8EncodeChar {c : Char} {b : UInt8} {rest : List UInt8}
    (h : String.utf8EncodeChar c = b :: rest) :
    (lead b.toNat = .character c ∧ rest = []) ∨
      ∃ bits low high more, lead b.toNat = .begins bits low high more ∧
        ∀ start seen, Begun.Completes ⟨start, seen, bits, low, high, more⟩ rest c := by
  have valid : c.toNat.isValidChar := c.valid
  have range : c.toNat < 0xD800 ∨ 0xDFFF < c.toNat ∧ c.toNat < 0x110000 := valid
  have char : c = Char.ofNat c.toNat := (Char.ofNat_toNat c).symm
  generalize c.toNat = v at *
  rw [char] at h ⊢
  rcases (by omega : v < 0x80 ∨ (0x80 ≤ v ∧ v ≤ 0x7FF) ∨ (0x800 ≤ v ∧ v ≤ 0xFFFF) ∨
    (0x10000 ≤ v ∧ v < 0x110000)) with one | ⟨lower, upper⟩ | ⟨lower, upper⟩ | ⟨lower, upper⟩
  · left
    rw [utf8EncodeChar_of_one one, List.cons.injEq] at h
    obtain ⟨rfl, rfl⟩ := h
    rw [toNat_byte_of_lt (by omega), lead_of_ascii one]
    exact ⟨rfl, rfl⟩
  · right
    rw [utf8EncodeChar_of_two lower upper, List.cons.injEq] at h
    obtain ⟨rfl, rfl⟩ := h
    rw [toNat_byte_of_lt (by omega), lead_of_two (by omega) (by omega)]
    refine ⟨_, _, _, _, rfl, fun start seen => ?_⟩
    simp only [Begun.Completes, true_and]
    rw [toNat_byte_of_lt (by omega)]
    exact ⟨by omega, by omega, congrArg Char.ofNat (by omega)⟩
  · right
    rw [utf8EncodeChar_of_three valid lower upper, List.cons.injEq] at h
    obtain ⟨rfl, rfl⟩ := h
    rw [toNat_byte_of_lt (by omega), lead_of_three (by omega) (by omega)]
    refine ⟨_, _, _, _, rfl, fun start seen => ?_⟩
    simp only [Begun.Completes, Begun.extend, true_and]
    rw [toNat_byte_of_lt (by omega), toNat_byte_of_lt (by omega)]
    refine ⟨?_, ?_, by omega, by omega, congrArg Char.ofNat (by omega)⟩
    · split_ifs <;> omega
    · split_ifs <;> omega
  · right
    rw [utf8EncodeChar_of_four lower upper, List.cons.injEq] at h
    obtain ⟨rfl, rfl⟩ := h
    rw [toNat_byte_of_lt (by omega), lead_of_four (by omega) (by omega)]
    refine ⟨_, _, _, _, rfl, fun start seen => ?_⟩
    simp only [Begun.Completes, Begun.extend, true_and]
    rw [toNat_byte_of_lt (by omega), toNat_byte_of_lt (by omega), toNat_byte_of_lt (by omega)]
    refine ⟨?_, ?_, by omega, by omega, by omega, by omega, congrArg Char.ofNat (by omega)⟩
    · split_ifs <;> omega
    · split_ifs <;> omega

theorem utf8EncodeChar_of_character {b : UInt8} {c : Char} (h : lead b.toNat = .character c) :
    String.utf8EncodeChar c = [b] := by
  obtain ⟨ascii, rfl⟩ := character_range_of_lead h
  rw [utf8EncodeChar_of_one ascii, byte_eq_of_toNat_eq rfl]

theorem utf8EncodeChar_of_completes {start seen bits low high more : Nat} {b : UInt8}
    {rest : List UInt8} {c : Char} (hb : lead b.toNat = .begins bits low high more)
    (h : Begun.Completes ⟨start, seen, bits, low, high, more⟩ rest c) :
    String.utf8EncodeChar c = b :: rest := by
  cases leadRange_of_begins hb with
  | two lower upper =>
    obtain ⟨b₁, hrest, l₁, h₁, hc⟩ := Begun.completes_zero_iff.mp h
    rw [hrest, hc, utf8EncodeChar_of_two (by omega) (by omega),
      byte_eq_of_toNat_eq (b := b) (by omega), byte_eq_of_toNat_eq (b := b₁) (by omega)]
  | three lower upper =>
    obtain ⟨b₁, _, rfl, l₁, h₁, h⟩ := Begun.completes_succ_iff.mp h
    obtain ⟨b₂, rfl, l₂, h₂, hc⟩ := Begun.completes_zero_iff.mp h
    -- the narrower range after 0xE0 keeps out overlong forms, that after 0xED surrogates
    have least : 0x800 ≤ ((b.toNat - 0xE0) * 64 + (b₁.toNat - 0x80)) * 64 + (b₂.toNat - 0x80) := by
      split_ifs at l₁ <;> omega
    have valid : Nat.isValidChar
        (((b.toNat - 0xE0) * 64 + (b₁.toNat - 0x80)) * 64 + (b₂.toNat - 0x80)) := by
      unfold Nat.isValidChar
      split_ifs at h₁ <;> omega
    have h₁ : b₁.toNat ≤ 0xBF := by split_ifs at h₁ <;> omega
    have l₁ : 0x80 ≤ b₁.toNat := by split_ifs at l₁ <;> omega
    rw [hc, utf8EncodeChar_of_three valid least (by omega),
      byte_eq_of_toNat_eq (b := b) (by omega), byte_eq_of_toNat_eq (b := b₁) (by omega),
      byte_eq_of_toNat_eq (b := b₂) (by omega)]
  | four lower upper =>
    obtain ⟨b₁, _, rfl, l₁, h₁, h⟩ := Begun.completes_succ_iff.mp h
    obtain ⟨b₂, _, rfl, l₂, h₂, h⟩ := Begun.completes_succ_iff.mp h
    obtain ⟨b₃, rfl, l₃, h₃, hc⟩ := Begun.completes_zero_iff.mp h
    have least : 0x10000 ≤ (((b.toNat - 0xF0) * 64 + (b₁.toNat - 0x80)) * 64 +
        (b₂.toNat - 0x80)) * 64 + (b₃.toNat - 0x80) := by
      split_ifs at l₁ <;> omega
    have greatest : (((b.toNat - 0xF0) * 64 + (b₁.toNat - 0x80)) * 64 +
        (b₂.toNat - 0x80)) * 64 + (b₃.toNat - 0x80) < 0x110000 := by
      split_ifs at h₁ <;> omega
    have h₁ : b₁.toNat ≤ 0xBF := by split_ifs at h₁ <;> omega
    have l₁ : 0x80 ≤ b₁.toNat := by split_ifs at l₁ <;> omega
    rw [hc, utf8EncodeChar_of_four least greatest, byte_eq_of_toNat_eq (b := b) (by omega),
      byte_eq_of_toNat_eq (b := b₁) (by omega), byte_eq_of_toNat_eq (b := b₂) (by omega),
      byte_eq_of_toNat_eq (b := b₃) (by omega)]

/-! ## Decoding a sequence -/

theorem decodeFrom_begun_last {index : Nat} {s : Begun} {done : List Char} {b : UInt8}
    {rest : List UInt8} (lower : s.low ≤ b.toNat) (upper : b.toNat ≤ s.high) (last : s.more = 0) :
    decodeFrom index (some s) done (b :: rest) =
      decodeFrom (index + 1) none (Char.ofNat (s.bits * 64 + (b.toNat - 0x80)) :: done) rest := by
  simp only [decodeFrom, lower, upper, and_self, if_true, last]

theorem decodeFrom_begun_extend {index more : Nat} {s : Begun} {done : List Char} {b : UInt8}
    {rest : List UInt8} (lower : s.low ≤ b.toNat) (upper : b.toNat ≤ s.high)
    (hmore : s.more = more + 1) :
    decodeFrom index (some s) done (b :: rest) =
      decodeFrom (index + 1) (some (s.extend b more)) done rest := by
  simp only [decodeFrom, lower, upper, and_self, if_true, hmore, Begun.extend]

theorem decodeFrom_begun_refused {index : Nat} {s : Begun} {done : List Char} {b : UInt8}
    {rest : List UInt8} (h : ¬ (s.low ≤ b.toNat ∧ b.toNat ≤ s.high)) :
    decodeFrom index (some s) done (b :: rest) = .error (.invalid s.start s.seen) := by
  simp only [decodeFrom, h, if_false]

theorem decodeFrom_completes {s : Begun} {bytes : List UInt8} {c : Char} (h : s.Completes bytes c)
    (index : Nat) (done : List Char) (rest : List UInt8) :
    decodeFrom index (some s) done (bytes ++ rest) =
      decodeFrom (index + bytes.length) none (c :: done) rest := by
  induction bytes generalizing index s with
  | nil => exact h.elim
  | cons b bytes ih =>
    obtain ⟨lower, upper, h⟩ := h
    rw [List.cons_append, List.length_cons, Nat.add_comm bytes.length, ← Nat.add_assoc]
    cases hmore : s.more with
    | zero =>
      simp only [hmore] at h
      rw [decodeFrom_begun_last lower upper hmore, h.1, h.2]
      rfl
    | succ more =>
      simp only [hmore] at h
      rw [decodeFrom_begun_extend lower upper hmore, ih h]

theorem exists_completes_of_decodeFrom_eq_ok {index : Nat} {s : Begun} {done text : List Char}
    {bytes : List UInt8} (h : decodeFrom index (some s) done bytes = .ok text) :
    ∃ bs rest c, bytes = bs ++ rest ∧ s.Completes bs c := by
  induction bytes generalizing index s with
  | nil => cases h
  | cons b bytes ih =>
    by_cases range : s.low ≤ b.toNat ∧ b.toNat ≤ s.high
    · obtain ⟨lower, upper⟩ := range
      cases hmore : s.more with
      | zero =>
        refine ⟨[b], bytes, Char.ofNat (s.bits * 64 + (b.toNat - 0x80)), rfl, lower, upper, ?_⟩
        simp only [hmore, and_self]
      | succ more =>
        rw [decodeFrom_begun_extend lower upper hmore] at h
        obtain ⟨bs, rest, c, rfl, completes⟩ := ih h
        refine ⟨b :: bs, rest, c, rfl, lower, upper, ?_⟩
        simpa only [hmore] using completes
    · rw [decodeFrom_begun_refused range] at h
      cases h

theorem decodeFrom_utf8EncodeChar (index : Nat) (done : List Char) (c : Char)
    (rest : List UInt8) :
    decodeFrom index none done (String.utf8EncodeChar c ++ rest) =
      decodeFrom (index + (String.utf8EncodeChar c).length) none (c :: done) rest := by
  obtain ⟨b, bytes, hc⟩ := List.exists_cons_of_ne_nil (String.utf8EncodeChar_ne_nil (c := c))
  rw [hc, List.cons_append, decodeFrom]
  rcases completes_of_utf8EncodeChar hc with
    ⟨ascii, rfl⟩ | ⟨bits, low, high, more, hlead, completes⟩
  · simp only [ascii]
    rfl
  · simp only [hlead]
    rw [decodeFrom_completes (completes index 1), List.length_cons, Nat.add_comm bytes.length,
      ← Nat.add_assoc]

theorem exists_utf8EncodeChar_of_decodeFrom_eq_ok {index : Nat} {done text : List Char} {b : UInt8}
    {bytes : List UInt8} (h : decodeFrom index none done (b :: bytes) = .ok text) :
    ∃ c rest, b :: bytes = String.utf8EncodeChar c ++ rest := by
  rw [decodeFrom] at h
  cases hlead : lead b.toNat with
  | character c => exact ⟨c, bytes, by rw [utf8EncodeChar_of_character hlead]; rfl⟩
  | begins bits low high more =>
    simp only [hlead] at h
    obtain ⟨bs, rest, c, rfl, completes⟩ := exists_completes_of_decodeFrom_eq_ok h
    exact ⟨c, rest, by rw [utf8EncodeChar_of_completes hlead completes]; rfl⟩
  | refused =>
    simp only [hlead] at h
    cases h

/-! ## Decoding texts -/

theorem decodeFrom_encode_append (index : Nat) (done text : List Char) (rest : List UInt8) :
    decodeFrom index none done (encode text ++ rest) =
      decodeFrom (index + (encode text).length) none (text.reverse ++ done) rest := by
  induction text generalizing index done with
  | nil => rfl
  | cons c text ih =>
    rw [encode_cons, List.append_assoc, decodeFrom_utf8EncodeChar, ih, List.length_append,
      Nat.add_assoc, List.reverse_cons, List.append_assoc]
    rfl

theorem decode_encode (text : List Char) : decode (encode text) = .ok text := by
  have decoded := decodeFrom_encode_append 0 [] text []
  rw [List.append_nil, List.append_nil, decodeFrom, List.reverse_reverse] at decoded
  exact decoded

/-- No character can be taken from the front. -/
def IsStuck (bytes : List UInt8) : Prop := ∀ c, ¬String.utf8EncodeChar c <+: bytes

/-- Bytes are a text and what no further character can be taken from. -/
theorem exists_encode_append (bytes : List UInt8) :
    ∃ text rest, bytes = encode text ++ rest ∧ IsStuck rest := by
  induction hn : bytes.length using Nat.strong_induction_on generalizing bytes with
  | _ n ih =>
    by_cases stuck : IsStuck bytes
    · exact ⟨[], bytes, rfl, stuck⟩
    · simp only [IsStuck, not_forall, not_not] at stuck
      obtain ⟨c, later, rfl⟩ := stuck
      have shorter : later.length < n := by
        rw [List.length_append, String.length_utf8EncodeChar] at hn
        have := c.utf8Size_pos
        omega
      obtain ⟨text, rest, rfl, stuck⟩ := ih _ shorter later rfl
      exact ⟨c :: text, rest, by rw [encode_cons, List.append_assoc], stuck⟩

/-- Decoding accepts no bytes that it can take no character from. -/
theorem IsStuck.eq_nil {index : Nat} {done text : List Char} {rest : List UInt8}
    (stuck : IsStuck rest) (h : decodeFrom index none done rest = .ok text) : rest = [] := by
  cases rest with
  | nil => rfl
  | cons b rest =>
    obtain ⟨c, later, split⟩ := exists_utf8EncodeChar_of_decodeFrom_eq_ok h
    exact absurd ⟨later, split.symm⟩ (stuck c)

theorem exists_encode_of_decode_eq_ok {bytes : List UInt8} {text : List Char}
    (h : decode bytes = .ok text) : ∃ t, bytes = encode t := by
  obtain ⟨t, rest, rfl, stuck⟩ := exists_encode_append bytes
  rw [decode, decodeFrom_encode_append] at h
  rw [stuck.eq_nil h, List.append_nil]
  exact ⟨t, rfl⟩

theorem encode_injective : Function.Injective encode := by
  intro a b h
  have decoded := decode_encode a
  rw [h, decode_encode] at decoded
  exact (Except.ok.inj decoded).symm

/-- **Decoding accepts exactly what encoding writes.** -/
theorem decode_eq_ok_iff {bytes : List UInt8} {text : List Char} :
    decode bytes = .ok text ↔ bytes = encode text := by
  constructor
  · intro h
    obtain ⟨t, rfl⟩ := exists_encode_of_decode_eq_ok h
    rw [decode_encode] at h
    cases h
    rfl
  · rintro rfl
    exact decode_encode text

theorem exists_fault_of_not_encoded {bytes : List UInt8} (h : ∀ text, bytes ≠ encode text) :
    ∃ fault, decode bytes = .error fault := by
  cases hd : decode bytes with
  | ok text => exact absurd (decode_eq_ok_iff.mp hd) (h text)
  | error fault => exact ⟨fault, rfl⟩

end LatencyLog.Utf8
