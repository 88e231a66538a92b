import LatencyLog.Proofs.Utf8.LineEnds

/-! # Lines of characters

Lines are cut from bytes, before any byte is decoded. For the bytes of a text they are the lines of
its characters.

* `Text.lines`: the lines of characters.
* `universalLines_encode`: the lines of encoded characters are their lines, encoded.
* `exists_encode_of_universalLines`: bytes whose lines are texts are a text.
-/

namespace LatencyLog

set_option autoImplicit false

/-! ## Characters -/

namespace Text

/-- Lines with one more character before the first of them. -/
def lengthen (c : Char) : List (List Char) → List (List Char)
  | [] => [[c]]
  | line :: more => (c :: line) :: more

/-- The lines of a text. Each ends at a line feed, at a carriage return or at both in that order;
the last one may be without an end, if it is not empty. -/
def lines : List Char → List (List Char)
  | [] => []
  | '\r' :: '\n' :: rest => [] :: lines rest
  | '\r' :: rest => [] :: lines rest
  | '\n' :: rest => [] :: lines rest
  | c :: rest => lengthen c (lines rest)

end Text

/-! ## Bytes, by what they begin with -/

theorem withoutEmptyLast_cons (line : List UInt8) {more : List (List UInt8)} (h : more ≠ []) :
    withoutEmptyLast (line :: more) = line :: withoutEmptyLast more := by
  obtain ⟨next, rest, rfl⟩ := List.exists_cons_of_ne_nil h
  unfold withoutEmptyLast
  rw [List.getLast?_cons_cons, List.dropLast_cons_of_ne_nil h]
  split <;> rfl

theorem universalLines_lineFeed (rest : List UInt8) :
    universalLines (lineFeed :: rest) = [] :: universalLines rest := by
  rw [universalLines, pieces_lineFeed, withoutEmptyLast_cons _ (pieces_ne_nil rest), universalLines]

theorem universalLines_return (rest : List UInt8) :
    universalLines (carriageReturn :: rest) = [] :: universalLines (dropLineFeed rest) := by
  rw [universalLines, pieces_return, withoutEmptyLast_cons _ (pieces_ne_nil _), universalLines]

/-- Lines with some more bytes before the first of them. -/
def lengthenBy (block : List UInt8) : List (List UInt8) → List (List UInt8)
  | [] => [block]
  | line :: more => (block ++ line) :: more

theorem universalLines_append_of_free {block : List UInt8} (some : block ≠ [])
    (free : FreeOfEnds block) (rest : List UInt8) :
    universalLines (block ++ rest) = lengthenBy block (universalLines rest) := by
  rw [universalLines, universalLines, pieces_append_of_free free]
  cases split : pieces rest with
  | nil => exact absurd split (pieces_ne_nil rest)
  | cons line more =>
    cases more with
    | nil =>
      by_cases empty : line = []
      · rw [empty]
        simp [withoutEmptyLast, lengthenBy, some]
      · simp [withoutEmptyLast, lengthenBy, some, empty]
    | cons next more =>
      rw [List.modifyHead_cons, withoutEmptyLast_cons _ (List.cons_ne_nil _ _),
        withoutEmptyLast_cons _ (List.cons_ne_nil _ _), lengthenBy]

/-! ## Encoded characters -/

namespace Utf8

theorem freeOfEnds_utf8EncodeChar {c : Char} (notFeed : c ≠ '\n') (notReturn : c ≠ '\r') :
    FreeOfEnds (String.utf8EncodeChar c) := by
  intro b member
  constructor
  · rintro rfl
    exact notFeed ((mem_utf8EncodeChar_iff (v := 0x0A) (by decide) c).mp member)
  · rintro rfl
    exact notReturn ((mem_utf8EncodeChar_iff (v := 0x0D) (by decide) c).mp member)

theorem encode_lineFeed_cons (rest : List Char) : encode ('\n' :: rest) = lineFeed :: encode rest :=
  encode_cons '\n' rest

theorem encode_return_cons (rest : List Char) :
    encode ('\r' :: rest) = carriageReturn :: encode rest :=
  encode_cons '\r' rest

theorem dropLineFeed_encode {text : List Char} (h : ∀ rest, text ≠ '\n' :: rest) :
    dropLineFeed (encode text) = encode text := by
  cases text with
  | nil => rfl
  | cons c rest =>
    have notFeed : c ≠ '\n' := fun same => h rest (by rw [same])
    obtain ⟨b, bytes, first⟩ := List.exists_cons_of_ne_nil (String.utf8EncodeChar_ne_nil (c := c))
    have other : b ≠ lineFeed := by
      rintro rfl
      have inside : lineFeed ∈ String.utf8EncodeChar c := first ▸ List.mem_cons_self
      exact notFeed ((mem_utf8EncodeChar_iff (v := 0x0A) (by decide) c).mp inside)
    rw [encode_cons, first, List.cons_append, dropLineFeed, if_neg other]

end Utf8

open Utf8

theorem lengthenBy_map_encode (c : Char) (lines : List (List Char)) :
    lengthenBy (String.utf8EncodeChar c) (lines.map encode) =
      (Text.lengthen c lines).map encode := by
  cases lines with
  | nil =>
    rw [Text.lengthen, List.map_singleton, encode_singleton]
    rfl
  | cons line more =>
    rw [Text.lengthen, List.map_cons, List.map_cons, encode_cons]
    rfl

/-- **The lines of encoded characters are their lines, encoded.** -/
theorem universalLines_encode (text : List Char) :
    universalLines (encode text) = (Text.lines text).map encode := by
  fun_induction Text.lines text with
  | case1 => rfl
  | case2 rest ih =>
    rw [encode_return_cons, encode_lineFeed_cons, universalLines_return, dropLineFeed, if_pos rfl,
      ih]
    rfl
  | case3 rest notPair ih =>
    rw [encode_return_cons, universalLines_return,
      dropLineFeed_encode fun later same => notPair later same, ih]
    rfl
  | case4 rest ih =>
    rw [encode_lineFeed_cons, universalLines_lineFeed, ih]
    rfl
  | case5 c rest notPair notReturn notFeed ih =>
    rw [encode_cons, universalLines_append_of_free String.utf8EncodeChar_ne_nil
      (freeOfEnds_utf8EncodeChar notFeed notReturn), ih, lengthenBy_map_encode]

/-! ## Bytes whose lines are texts -/

/-- Bytes up to their first line end, and what is left from there on. -/
theorem exists_free_append (bytes : List UInt8) :
    ∃ block rest, bytes = block ++ rest ∧ FreeOfEnds block ∧
      ∀ b ∈ rest.head?, b = lineFeed ∨ b = carriageReturn := by
  induction bytes with
  | nil => exact ⟨[], [], rfl, List.forall_mem_nil _, by rintro b ⟨⟩⟩
  | cons b bytes ih =>
    by_cases ends : b = lineFeed ∨ b = carriageReturn
    · refine ⟨[], b :: bytes, rfl, List.forall_mem_nil _, ?_⟩
      rintro c same
      exact Option.some.inj same ▸ ends
    · obtain ⟨block, rest, rfl, free, head⟩ := ih
      exact ⟨b :: block, rest, rfl, List.forall_mem_cons.mpr ⟨not_or.mp ends, free⟩, head⟩

theorem dropLineFeed_cases (bytes : List UInt8) :
    dropLineFeed bytes = bytes ∨ bytes = lineFeed :: dropLineFeed bytes := by
  cases bytes with
  | nil => exact Or.inl rfl
  | cons b rest =>
    by_cases feed : b = lineFeed
    · rw [dropLineFeed, if_pos feed, feed]
      exact Or.inr rfl
    · exact Or.inl (by rw [dropLineFeed, if_neg feed])

/-- **Bytes whose lines are texts are a text.** -/
theorem exists_encode_of_universalLines {bytes : List UInt8}
    (h : ∀ line ∈ universalLines bytes, ∃ text, line = encode text) :
    ∃ text, bytes = encode text := by
  -- Each step takes off a line end, or all bytes before one.
  induction hn : bytes.length using Nat.strong_induction_on generalizing bytes with
  | _ n ih =>
  obtain ⟨block, rest, rfl, free, ends⟩ := exists_free_append bytes
  rw [List.length_append] at hn
  by_cases empty : block = []
  · subst empty
    cases rest with
    | nil => exact ⟨[], rfl⟩
    | cons b rest =>
      rw [List.length_nil, Nat.zero_add, List.length_cons] at hn
      rw [List.nil_append] at h ⊢
      rcases ends b rfl with rfl | rfl
      · rw [universalLines_lineFeed] at h
        obtain ⟨text, rfl⟩ := ih rest.length (by omega) (List.forall_mem_cons.mp h).2 rfl
        exact ⟨'\n' :: text, (encode_lineFeed_cons text).symm⟩
      · rw [universalLines_return] at h
        have shorter := length_dropLineFeed_le rest
        obtain ⟨text, encoded⟩ := ih (dropLineFeed rest).length (by omega)
          (List.forall_mem_cons.mp h).2 rfl
        rcases dropLineFeed_cases rest with same | fed
        · exact ⟨'\r' :: text, by rw [encode_return_cons, ← encoded, same]⟩
        · exact ⟨'\r' :: '\n' :: text, by
            rw [encode_return_cons, encode_lineFeed_cons, ← encoded, ← fed]⟩
  · have shorter := List.length_pos_of_ne_nil empty
    rw [universalLines_append_of_free empty free] at h
    cases rest with
    | nil =>
      rw [List.append_nil]
      exact h block List.mem_cons_self
    | cons b rest =>
      -- A line end comes next, so that the block is a line by itself.
      obtain ⟨more, split⟩ : ∃ more, universalLines (b :: rest) = [] :: more := by
        rcases ends b rfl with rfl | rfl
        · exact ⟨_, universalLines_lineFeed rest⟩
        · exact ⟨_, universalLines_return rest⟩
      rw [split, lengthenBy, List.append_nil] at h
      obtain ⟨⟨first, rfl⟩, later⟩ := List.forall_mem_cons.mp h
      obtain ⟨second, rest_eq⟩ := ih (b :: rest).length (by omega) (by
        rw [split]
        exact List.forall_mem_cons.mpr ⟨⟨[], encode_nil.symm⟩, later⟩) rfl
      exact ⟨first ++ second, by rw [encode_append, rest_eq]⟩

end LatencyLog
