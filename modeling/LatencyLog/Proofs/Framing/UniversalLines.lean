import LatencyLog.Framing

/-! # The lines of bytes, by replacing and splitting

The lines of all bytes at once, without a machine: first every carriage return with a line feed
after it becomes a line feed, then every other carriage return does, and then the bytes are split
at the line feeds.

* `pieces`: the pieces that the split gives; there is at least one.
* `endedLines`, `lastPiece`: the pieces with a line end after them, and the one without.
* `withoutEmptyLast`, `universalLines`: the lines; an empty last piece is none.
* `FreeOfEnds`, `pieces_append_of_free`: bytes without a line end begin the first piece.
* `pieces_of_cut_ended`, `freeOfEnds_of_cut_unended`: `cut` takes the first piece off.
-/

namespace LatencyLog

set_option autoImplicit false

/-! ## Replacing and splitting -/

/-- Bytes with a line feed for every carriage return that a line feed follows, and for both. -/
def replacePairs : List UInt8 → List UInt8
  | [] => []
  | [b] => [b]
  | a :: b :: rest =>
    if a = carriageReturn ∧ b = lineFeed then lineFeed :: replacePairs rest
    else a :: replacePairs (b :: rest)

/-- Bytes with a line feed for every carriage return. -/
def replaceReturns (bytes : List UInt8) : List UInt8 :=
  bytes.map fun b => if b = carriageReturn then lineFeed else b

def pieces (bytes : List UInt8) : List (List UInt8) :=
  (replaceReturns (replacePairs bytes)).splitOn lineFeed

/-- The pieces that a line end follows. -/
def endedLines (bytes : List UInt8) : List (List UInt8) := (pieces bytes).dropLast

/-- The piece after the last line end. -/
def lastPiece (bytes : List UInt8) : List UInt8 := (pieces bytes).getLastD []

/-- Pieces without the last one if it is empty. -/
def withoutEmptyLast (ps : List (List UInt8)) : List (List UInt8) :=
  if ps.getLast? = some [] then ps.dropLast else ps

/-- The lines of some bytes. -/
def universalLines (bytes : List UInt8) : List (List UInt8) := withoutEmptyLast (pieces bytes)

theorem pieces_ne_nil (bytes : List UInt8) : pieces bytes ≠ [] := List.splitOn_ne_nil _ _

theorem pieces_eq_append (bytes : List UInt8) :
    pieces bytes = endedLines bytes ++ [lastPiece bytes] := by
  rw [endedLines, lastPiece, List.getLastD_eq_getLast?,
    List.getLast?_eq_some_getLast (pieces_ne_nil bytes), Option.getD_some]
  exact (List.dropLast_concat_getLast (pieces_ne_nil bytes)).symm

theorem universalLines_eq (bytes : List UInt8) :
    universalLines bytes =
      endedLines bytes ++ if lastPiece bytes = [] then [] else [lastPiece bytes] := by
  rw [universalLines, withoutEmptyLast, pieces_eq_append]
  by_cases h : lastPiece bytes = [] <;> simp [h]

/-! ## Pieces, byte by byte -/

theorem replacePairs_cons {b : UInt8} (h : b ≠ carriageReturn) (rest : List UInt8) :
    replacePairs (b :: rest) = b :: replacePairs rest := by
  cases rest with
  | nil => rfl
  | cons c rest => rw [replacePairs, if_neg fun both => h both.1]

theorem replaceReturns_cons (b : UInt8) (rest : List UInt8) :
    replaceReturns (b :: rest) =
      (if b = carriageReturn then lineFeed else b) :: replaceReturns rest := rfl

theorem pieces_lineFeed (rest : List UInt8) : pieces (lineFeed :: rest) = [] :: pieces rest := by
  rw [pieces, replacePairs_cons (by decide), replaceReturns_cons, if_neg (by decide),
    List.splitOn_cons_eq_if_modifyHead, if_pos (by decide)]
  rfl

theorem pieces_other {b : UInt8} (notFeed : b ≠ lineFeed) (notReturn : b ≠ carriageReturn)
    (rest : List UInt8) : pieces (b :: rest) = (pieces rest).modifyHead (b :: ·) := by
  rw [pieces, replacePairs_cons notReturn, replaceReturns_cons, if_neg notReturn,
    List.splitOn_cons_eq_if_modifyHead, if_neg (by simpa using notFeed)]
  rfl

/-- A line feed after a carriage return belongs to it. -/
theorem pieces_return (rest : List UInt8) :
    pieces (carriageReturn :: rest) = [] :: pieces (dropLineFeed rest) := by
  cases rest with
  | nil => rfl
  | cons b rest =>
    by_cases h : b = lineFeed
    · rw [h, dropLineFeed, if_pos rfl, pieces, replacePairs, if_pos ⟨rfl, rfl⟩,
        replaceReturns_cons, if_neg (by decide), List.splitOn_cons_eq_if_modifyHead,
        if_pos (by decide)]
      rfl
    · rw [dropLineFeed, if_neg h, pieces, replacePairs, if_neg fun both => h both.2,
        replaceReturns_cons, if_pos rfl, List.splitOn_cons_eq_if_modifyHead, if_pos (by decide)]
      rfl

/-- No line end stands among the bytes. -/
def FreeOfEnds (bytes : List UInt8) : Prop := ∀ b ∈ bytes, b ≠ lineFeed ∧ b ≠ carriageReturn

theorem freeOfEnds_of_notMem {bytes : List UInt8} (noFeed : lineFeed ∉ bytes)
    (noReturn : carriageReturn ∉ bytes) : FreeOfEnds bytes := fun _ member =>
  ⟨fun same => noFeed (same ▸ member), fun same => noReturn (same ▸ member)⟩

theorem FreeOfEnds.return_notMem {bytes : List UInt8} (free : FreeOfEnds bytes) :
    carriageReturn ∉ bytes := fun member => (free _ member).2 rfl

theorem FreeOfEnds.reverse {bytes : List UInt8} (free : FreeOfEnds bytes) :
    FreeOfEnds bytes.reverse := fun b member => free b (List.mem_reverse.mp member)

theorem FreeOfEnds.append {bytes more : List UInt8} (free : FreeOfEnds bytes)
    (free' : FreeOfEnds more) : FreeOfEnds (bytes ++ more) := fun b member =>
  (List.mem_append.mp member).elim (free b) (free' b)

theorem pieces_append_of_free {block : List UInt8} (free : FreeOfEnds block) (rest : List UInt8) :
    pieces (block ++ rest) = (pieces rest).modifyHead (block ++ ·) := by
  induction block with
  | nil =>
    rw [List.nil_append]
    cases pieces rest <;> rfl
  | cons b block ih =>
    obtain ⟨⟨notFeed, notReturn⟩, others⟩ := List.forall_mem_cons.mp free
    rw [List.cons_append, pieces_other notFeed notReturn, ih others]
    cases pieces rest <;> rfl

/-! ## Cutting off the first piece -/

/-- The bytes that are read where a carriage return has ended the line before, or has not. -/
def afterLine (byReturn : Bool) (bytes : List UInt8) : List UInt8 :=
  if byReturn then dropLineFeed bytes else bytes

theorem afterLine_append_of_ne_nil {bytes : List UInt8} (h : bytes ≠ []) (byReturn : Bool)
    (more : List UInt8) :
    afterLine byReturn (bytes ++ more) = afterLine byReturn bytes ++ more := by
  cases byReturn with
  | false => rfl
  | true =>
    cases bytes with
    | nil => exact absurd rfl h
    | cons b rest =>
      simp only [afterLine, if_true, List.cons_append, dropLineFeed]
      split <;> rfl

theorem cut_append_of_ended {held bytes line rest : List UInt8} {byReturn : Bool}
    (h : cut held bytes = .ended line byReturn rest) (more : List UInt8) :
    cut held (bytes ++ more) = .ended line byReturn (rest ++ more) := by
  fun_induction cut held bytes with
  | case1 held => cases h
  | case2 held later =>
    cases h
    rw [List.cons_append, cut, if_pos rfl]
  | case3 held later =>
    cases h
    rw [List.cons_append, cut, if_neg (by decide), if_pos rfl]
  | case4 held b later notFeed notReturn ih =>
    rw [List.cons_append, cut, if_neg notFeed, if_neg notReturn]
    exact ih h

theorem pieces_of_cut_ended {held bytes line rest : List UInt8} {byReturn : Bool}
    (h : cut held bytes = .ended line byReturn rest) :
    ∃ body, line = body.reverse ++ held ∧ FreeOfEnds body ∧
      pieces bytes = body :: pieces (afterLine byReturn rest) := by
  fun_induction cut held bytes with
  | case1 held => cases h
  | case2 held later =>
    cases h
    exact ⟨[], rfl, List.forall_mem_nil _, pieces_lineFeed rest⟩
  | case3 held later =>
    cases h
    exact ⟨[], rfl, List.forall_mem_nil _, pieces_return rest⟩
  | case4 held b later notFeed notReturn ih =>
    obtain ⟨body, rfl, free, split⟩ := ih h
    refine ⟨b :: body, by simp, List.forall_mem_cons.mpr ⟨⟨notFeed, notReturn⟩, free⟩, ?_⟩
    rw [pieces_other notFeed notReturn, split]
    rfl

theorem freeOfEnds_of_cut_unended {held bytes line : List UInt8}
    (h : cut held bytes = .unended line) : line = bytes.reverse ++ held ∧ FreeOfEnds bytes := by
  fun_induction cut held bytes with
  | case1 held =>
    cases h
    exact ⟨rfl, List.forall_mem_nil _⟩
  | case2 held later => cases h
  | case3 held later => cases h
  | case4 held b later notFeed notReturn ih =>
    obtain ⟨rfl, free⟩ := ih h
    exact ⟨by simp, List.forall_mem_cons.mpr ⟨⟨notFeed, notReturn⟩, free⟩⟩

end LatencyLog
