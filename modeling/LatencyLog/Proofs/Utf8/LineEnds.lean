import LatencyLog.Proofs.Framing.Concatenation
import LatencyLog.Proofs.Utf8.Encoding

/-! # Line ends in encoded texts

A byte below `0x80` is the whole encoding of one character, so the line ends among the bytes of a
text are those among its characters.

* `Unbroken`: a text without line ends in it.
* `lineBytes`, `universalLines_lineBytes`: texts with a line feed after each of them, and the lines
  of their bytes.
-/

namespace LatencyLog.Utf8

set_option autoImplicit false

theorem encode_append (before after : List Char) :
    encode (before ++ after) = encode before ++ encode after := List.flatMap_append

theorem encode_singleton (c : Char) : encode [c] = String.utf8EncodeChar c := by
  rw [encode_cons, encode_nil, List.append_nil]

/-! ## Bytes of one character -/

theorem le_toNat_of_mem_utf8EncodeChar {c : Char} (h : 0x80 ≤ c.toNat) {b : UInt8}
    (member : b ∈ String.utf8EncodeChar c) : 0x80 ≤ b.toNat := by
  have valid : c.toNat.isValidChar := c.valid
  have range : c.toNat < 0x110000 := by
    unfold Nat.isValidChar at valid
    omega
  rw [← Char.ofNat_toNat c] at member
  have high : ∀ n : Nat, 0x80 ≤ n → n < 256 → 0x80 ≤ (UInt8.ofNat n).toNat := by
    intro n lower upper
    rwa [toNat_byte_of_lt upper]
  by_cases two : c.toNat ≤ 0x7FF
  · rw [utf8EncodeChar_of_two h two] at member
    simp only [List.mem_cons, List.not_mem_nil, or_false] at member
    rcases member with rfl | rfl <;> exact high _ (by omega) (by omega)
  · by_cases three : c.toNat ≤ 0xFFFF
    · rw [utf8EncodeChar_of_three valid (by omega) three] at member
      simp only [List.mem_cons, List.not_mem_nil, or_false] at member
      rcases member with rfl | rfl | rfl <;> exact high _ (by omega) (by omega)
    · rw [utf8EncodeChar_of_four (by omega) range] at member
      simp only [List.mem_cons, List.not_mem_nil, or_false] at member
      rcases member with rfl | rfl | rfl | rfl <;> exact high _ (by omega) (by omega)

theorem mem_utf8EncodeChar_iff {v : Nat} (ascii : v < 0x80) (c : Char) :
    UInt8.ofNat v ∈ String.utf8EncodeChar c ↔ c = Char.ofNat v := by
  have value : (UInt8.ofNat v).toNat = v := toNat_byte_of_lt (by omega)
  constructor
  · intro member
    have below : c.toNat < 0x80 := by
      by_contra above
      have high := le_toNat_of_mem_utf8EncodeChar (by omega) member
      omega
    rw [← Char.ofNat_toNat c, utf8EncodeChar_of_one below, List.mem_singleton] at member
    have same : v = c.toNat := by
      rw [← value, member, toNat_byte_of_lt (by omega)]
    rw [same, Char.ofNat_toNat]
  · rintro rfl
    rw [utf8EncodeChar_of_one ascii]
    exact List.mem_singleton_self _

/-! ## Bytes of a text -/

theorem mem_encode_iff {v : Nat} (ascii : v < 0x80) (text : List Char) :
    UInt8.ofNat v ∈ encode text ↔ Char.ofNat v ∈ text := by
  unfold encode
  rw [List.mem_flatMap]
  constructor
  · rintro ⟨c, inside, member⟩
    rw [(mem_utf8EncodeChar_iff ascii c).mp member] at inside
    exact inside
  · intro inside
    exact ⟨_, inside, (mem_utf8EncodeChar_iff ascii _).mpr rfl⟩

theorem lineFeed_mem_encode_iff (text : List Char) : lineFeed ∈ encode text ↔ '\n' ∈ text :=
  mem_encode_iff (v := 0x0A) (by decide) text

theorem carriageReturn_mem_encode_iff (text : List Char) :
    carriageReturn ∈ encode text ↔ '\r' ∈ text :=
  mem_encode_iff (v := 0x0D) (by decide) text

theorem encode_return : encode ['\r'] = [carriageReturn] := by decide

theorem carriageReturn_mem_dropLast_encode {text : List Char} (h : '\r' ∈ text.dropLast) :
    carriageReturn ∈ (encode text).dropLast := by
  have nonempty : text ≠ [] := by
    rintro rfl
    cases h
  have last : String.utf8EncodeChar (text.getLast nonempty) ≠ [] := String.utf8EncodeChar_ne_nil
  rw [← List.dropLast_concat_getLast nonempty, encode_append, encode_singleton,
    List.dropLast_append_of_ne_nil last]
  apply List.mem_append_left
  exact (carriageReturn_mem_encode_iff _).mpr h

end LatencyLog.Utf8

namespace LatencyLog

/-! ## Texts as lines -/

/-- No line end stands in the text. -/
structure Unbroken (text : List Char) : Prop where
  noFeed : '\n' ∉ text
  noReturn : '\r' ∉ text

instance (text : List Char) : Decidable (Unbroken text) :=
  decidable_of_iff ('\n' ∉ text ∧ '\r' ∉ text) ⟨fun h => ⟨h.1, h.2⟩, fun h => ⟨h.1, h.2⟩⟩

theorem Unbroken.feed_notMem_encode {text : List Char} (h : Unbroken text) :
    lineFeed ∉ Utf8.encode text := (Utf8.lineFeed_mem_encode_iff text).not.mpr h.noFeed

theorem Unbroken.return_notMem_encode {text : List Char} (h : Unbroken text) :
    carriageReturn ∉ Utf8.encode text :=
  (Utf8.carriageReturn_mem_encode_iff text).not.mpr h.noReturn

theorem Unbroken.freeOfEnds_encode {text : List Char} (h : Unbroken text) :
    FreeOfEnds (Utf8.encode text) :=
  freeOfEnds_of_notMem h.feed_notMem_encode h.return_notMem_encode

/-- The bytes of texts with a line feed after each of them. -/
def lineBytes (texts : List (List Char)) : List UInt8 := terminated (texts.map Utf8.encode)

theorem universalLines_lineBytes {texts : List (List Char)} (h : ∀ text ∈ texts, Unbroken text) :
    universalLines (lineBytes texts) = texts.map Utf8.encode := by
  apply universalLines_terminated_of_free
  exact List.forall_mem_map.mpr fun text member => (h text member).freeOfEnds_encode

end LatencyLog
