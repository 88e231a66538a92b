import LatencyLog.Proofs.Framing.Gathering

/-! # Lines of bytes put together

The lines of two stretches of bytes, one after the other.

* `pieces_append`: the last piece of the first stretch goes on with the first piece of the second.
* `universalLines_append`: where the first stretch ends with a line end, the lines are put one after
  the other, unless the boundary parts a carriage return from its line feed.
* `terminated`, `universalLines_terminated_of_free`: lines with a line feed after each of them.
* `two_le_length_universalLines`: a carriage return within a line makes more than one line of it.
-/

namespace LatencyLog

set_option autoImplicit false

/-! ## Pieces -/

theorem pieces_append_of_single {a last : List UInt8} {ret : Bool}
    (h : pieces (afterLine ret a) = [last]) (b : List UInt8) :
    pieces (afterLine ret (a ++ b)) =
      (pieces (afterLine (returnPending ret a) b)).modifyHead (last ++ ·) := by
  cases hcut : cut [] (afterLine ret a) with
  | ended line byReturn rest =>
    have alone : pieces (afterLine ret (a ++ [])) = last :: [] := by
      rw [List.append_nil]
      exact h
    exact absurd (pieces_after_ended hcut alone).2.symm (pieces_ne_nil _)
  | unended line =>
    have whole : last = afterLine ret a := by
      have grown := pieces_append_of_free (freeOfEnds_of_cut_unended hcut).2 []
      rw [List.append_nil, h] at grown
      simpa [pieces, replacePairs, replaceReturns] using grown
    have pending := returnPending_of_cut_unended hcut
    by_cases empty : a = []
    · subst empty
      have nothing : last = [] := by
        rw [whole]
        cases ret <;> rfl
      rw [nothing, returnPending_nil, List.nil_append]
      cases pieces (afterLine ret b) <;> rfl
    · have filled : a.isEmpty = false := by simpa using empty
      rw [filled, Bool.and_false] at pending
      rw [afterLine_append_of_ne_nil empty,
        pieces_append_of_free (freeOfEnds_of_cut_unended hcut).2 b, pending, whole]
      rfl

/-- What a first line end leaves of a stretch is a stretch that goes on in the same way. -/
theorem exists_rest_of_pieces {a line : List UInt8} {more : List (List UInt8)} {ret : Bool}
    (h : pieces (afterLine ret a) = line :: more) (hmore : more ≠ []) :
    ∃ rest ret', pieces (afterLine ret' rest) = more ∧
      returnPending ret' rest = returnPending ret a ∧
      ∀ b, pieces (afterLine ret (a ++ b)) = line :: pieces (afterLine ret' (rest ++ b)) := by
  have several : pieces (afterLine ret (a ++ [])) = line :: more := by
    rw [List.append_nil]
    exact h
  cases hcut : cut [] (afterLine ret a) with
  | unended whole =>
    have grown := pieces_append_of_free (freeOfEnds_of_cut_unended hcut).2 []
    rw [List.append_nil, h] at grown
    have count := congrArg List.length grown
    simp [pieces, replacePairs, replaceReturns] at count
    exact absurd count hmore
  | ended whole byReturn rest =>
    obtain ⟨first, others⟩ := pieces_after_ended hcut several
    rw [List.append_nil] at others
    refine ⟨rest, byReturn, others.symm, returnPending_of_cut_ended hcut, fun b => ?_⟩
    cases joined : pieces (afterLine ret (a ++ b)) with
    | nil => exact absurd joined (pieces_ne_nil _)
    | cons line' others' =>
      obtain ⟨first', rest'⟩ := pieces_after_ended hcut joined
      rw [first] at first'
      have same : line' = line := by simpa using first'.symm
      rw [same, rest']

theorem pieces_append_of_pieces {a : List UInt8} {ended : List (List UInt8)} {last : List UInt8}
    {ret : Bool} (h : pieces (afterLine ret a) = ended ++ [last]) (b : List UInt8) :
    pieces (afterLine ret (a ++ b)) =
      ended ++ (pieces (afterLine (returnPending ret a) b)).modifyHead (last ++ ·) := by
  induction ended generalizing a ret with
  | nil => exact pieces_append_of_single h b
  | cons line ended ih =>
    obtain ⟨rest, ret', later, pending, joined⟩ := exists_rest_of_pieces h (by simp)
    rw [joined b, ih later, pending]
    rfl

/-- The piece begun in the first stretch goes on in the second. -/
theorem pieces_append (a b : List UInt8) :
    pieces (a ++ b) =
      endedLines a ++ (pieces (afterLine (returnPending false a) b)).modifyHead
        (lastPiece a ++ ·) := by
  have split : pieces (afterLine false a) = endedLines a ++ [lastPiece a] := pieces_eq_append a
  exact pieces_append_of_pieces split b

theorem lastPiece_of_pieces {bytes last : List UInt8} {ended : List (List UInt8)}
    (h : pieces bytes = ended ++ [last]) : lastPiece bytes = last := by
  simp [lastPiece, h]

theorem lastPiece_concat_return (a : List UInt8) : lastPiece (a ++ [carriageReturn]) = [] := by
  have kept : afterLine (returnPending false a) [carriageReturn] = [carriageReturn] := by
    cases returnPending false a <;> rfl
  have split : pieces [carriageReturn] = [[], []] := rfl
  have joined := pieces_append a [carriageReturn]
  rw [kept, split] at joined
  have grouped : pieces (a ++ [carriageReturn]) = (endedLines a ++ [lastPiece a]) ++ [[]] := by
    simpa using joined
  exact lastPiece_of_pieces grouped

theorem lastPiece_of_returnPending {a : List UInt8} (h : returnPending false a = true) :
    lastPiece a = [] := by
  unfold returnPending at h
  cases last : a.getLast? with
  | none =>
    rw [last] at h
    cases h
  | some b =>
    rw [last] at h
    have ret : b = carriageReturn := by simpa using h
    obtain ⟨front, rfl⟩ := List.getLast?_eq_some_iff.mp last
    rw [ret]
    exact lastPiece_concat_return front

theorem lastPiece_concat_feed (a : List UInt8) : lastPiece (a ++ [lineFeed]) = [] := by
  have joined := pieces_append a [lineFeed]
  cases pending : returnPending false a with
  | false =>
    have split : pieces (afterLine false [lineFeed]) = [[], []] := rfl
    rw [pending, split] at joined
    have grouped : pieces (a ++ [lineFeed]) = (endedLines a ++ [lastPiece a]) ++ [[]] := by
      simpa using joined
    exact lastPiece_of_pieces grouped
  | true =>
    have split : pieces (afterLine true [lineFeed]) = [[]] := rfl
    rw [pending, split, lastPiece_of_returnPending pending] at joined
    exact lastPiece_of_pieces joined

/-! ## Lines -/

/-- The bytes are none, or a line end stands last. -/
def EndsLine (bytes : List UInt8) : Prop :=
  bytes = [] ∨ bytes.getLast? = some lineFeed ∨ bytes.getLast? = some carriageReturn

theorem lastPiece_of_endsLine {bytes : List UInt8} (h : EndsLine bytes) :
    lastPiece bytes = [] := by
  rcases h with rfl | feed | ret
  · rfl
  · obtain ⟨front, rfl⟩ := List.getLast?_eq_some_iff.mp feed
    exact lastPiece_concat_feed front
  · obtain ⟨front, rfl⟩ := List.getLast?_eq_some_iff.mp ret
    exact lastPiece_concat_return front

/-- The boundary parts no carriage return from its line feed. -/
def PartsNoPair (a b : List UInt8) : Prop :=
  a.getLast? = some carriageReturn → b.head? ≠ some lineFeed

theorem afterLine_of_partsNoPair {a b : List UInt8} (h : PartsNoPair a b) :
    afterLine (returnPending false a) b = b := by
  unfold returnPending
  cases last : a.getLast? with
  | none => rfl
  | some c =>
    by_cases ret : c = carriageReturn
    · subst ret
      have notFeed := h last
      cases b with
      | nil => rfl
      | cons d rest =>
        have other : d ≠ lineFeed := by
          intro feed
          exact notFeed (congrArg some feed)
        show dropLineFeed (d :: rest) = d :: rest
        rw [dropLineFeed, if_neg other]
    · simp only [beq_eq_false_iff_ne.mpr ret]
      rfl

theorem universalLines_append {a b : List UInt8} (ends : EndsLine a) (whole : PartsNoPair a b) :
    universalLines (a ++ b) = universalLines a ++ universalLines b := by
  have noLast := lastPiece_of_endsLine ends
  have joined : pieces (a ++ b) = endedLines a ++ pieces b := by
    rw [pieces_append, noLast, afterLine_of_partsNoPair whole]
    cases pieces b <;> rfl
  have front : endedLines (a ++ b) = endedLines a ++ endedLines b := by
    unfold endedLines
    rw [joined, List.dropLast_append_of_ne_nil (pieces_ne_nil b)]
    rfl
  have back : lastPiece (a ++ b) = lastPiece b := by
    rw [pieces_eq_append b, ← List.append_assoc] at joined
    exact lastPiece_of_pieces joined
  rw [universalLines_eq (a ++ b), front, back, universalLines_eq a, noLast, universalLines_eq b]
  simp

theorem universalLines_ne_nil {bytes : List UInt8} (h : bytes ≠ []) :
    universalLines bytes ≠ [] := by
  intro none
  rw [universalLines_eq] at none
  obtain ⟨noEnded, noLast⟩ := List.append_eq_nil_iff.mp none
  have alone : pieces bytes = [[]] := by
    by_cases empty : lastPiece bytes = []
    · rw [pieces_eq_append, noEnded, empty]
      rfl
    · rw [if_neg empty] at noLast
      cases noLast
  obtain ⟨b, rest, rfl⟩ := List.exists_cons_of_ne_nil h
  by_cases feed : b = lineFeed
  · rw [feed, pieces_lineFeed] at alone
    exact pieces_ne_nil rest (List.cons.inj alone).2
  · by_cases ret : b = carriageReturn
    · rw [ret, pieces_return] at alone
      exact pieces_ne_nil _ (List.cons.inj alone).2
    · rw [pieces_other feed ret] at alone
      cases split : pieces rest with
      | nil => exact pieces_ne_nil rest split
      | cons first others =>
        rw [split] at alone
        cases alone

/-! ## Lines with their ends -/

theorem universalLines_of_pieces {bytes : List UInt8} {ended : List (List UInt8)}
    (h : pieces bytes = ended ++ [[]]) : universalLines bytes = ended := by
  simp [universalLines, withoutEmptyLast, h]

variable {line : List UInt8}

theorem universalLines_append_ending (free : FreeOfEnds line) {ending : List UInt8}
    (split : pieces ending = [[], []]) : universalLines (line ++ ending) = [line] := by
  apply universalLines_of_pieces
  rw [pieces_append_of_free free, split, List.modifyHead_cons, List.append_nil]
  rfl

theorem universalLines_feed (free : FreeOfEnds line) :
    universalLines (line ++ [lineFeed]) = [line] :=
  universalLines_append_ending free rfl

theorem universalLines_pair (free : FreeOfEnds line) :
    universalLines (line ++ [carriageReturn] ++ [lineFeed]) = [line] := by
  rw [List.append_assoc]
  exact universalLines_append_ending free rfl

/-- A carriage return before the end of a line makes two lines of it. -/
theorem two_le_length_universalLines (noFeed : lineFeed ∉ line)
    (inside : carriageReturn ∈ line.dropLast) :
    2 ≤ (universalLines (line ++ [lineFeed])).length := by
  obtain ⟨front, back, split⟩ := List.append_of_mem inside
  have nonempty : line ≠ [] := by
    rintro rfl
    cases inside
  have whole : line = front ++ [carriageReturn] ++ (back ++ [line.getLast nonempty]) := by
    conv_lhs => rw [← List.dropLast_concat_getLast nonempty, split]
    simp
  have ends : EndsLine (front ++ [carriageReturn]) := Or.inr (Or.inr List.getLast?_concat)
  have rest : back ++ [line.getLast nonempty] ++ [lineFeed] ≠ [] := by simp
  have parts : PartsNoPair (front ++ [carriageReturn])
      (back ++ [line.getLast nonempty] ++ [lineFeed]) := by
    intro _ first
    cases back with
    | nil =>
      have feed : line.getLast nonempty = lineFeed := by simpa using first
      exact noFeed (feed ▸ List.getLast_mem nonempty)
    | cons b back =>
      have feed : b = lineFeed := by simpa using first
      apply noFeed
      rw [whole, feed]
      simp
  have lines := universalLines_append ends parts
  rw [← List.append_assoc, ← whole] at lines
  have first := List.length_pos_of_ne_nil (universalLines_ne_nil (by simp :
    front ++ [carriageReturn] ≠ []))
  have second := List.length_pos_of_ne_nil (universalLines_ne_nil rest)
  rw [lines, List.length_append]
  omega

/-- Lines with a line feed after each of them. -/
def terminated (lines : List (List UInt8)) : List UInt8 :=
  lines.flatMap fun line => line ++ [lineFeed]

theorem terminated_cons (line : List UInt8) (lines : List (List UInt8)) :
    terminated (line :: lines) = line ++ [lineFeed] ++ terminated lines := List.flatMap_cons

theorem universalLines_terminated (lines : List (List UInt8)) :
    universalLines (terminated lines) =
      lines.flatMap fun line => universalLines (line ++ [lineFeed]) := by
  induction lines with
  | nil => rfl
  | cons line lines ih =>
    have last : (line ++ [lineFeed]).getLast? = some lineFeed := List.getLast?_concat
    have ends : EndsLine (line ++ [lineFeed]) := Or.inr (Or.inl last)
    have parts : PartsNoPair (line ++ [lineFeed]) (terminated lines) := by
      intro ret
      rw [last] at ret
      cases ret
    rw [terminated_cons, universalLines_append ends parts, ih, List.flatMap_cons]

theorem universalLines_terminated_of_free {lines : List (List UInt8)}
    (free : ∀ line ∈ lines, FreeOfEnds line) : universalLines (terminated lines) = lines := by
  rw [universalLines_terminated]
  induction lines with
  | nil => rfl
  | cons line lines ih =>
    obtain ⟨first, others⟩ := List.forall_mem_cons.mp free
    rw [List.flatMap_cons, universalLines_feed first, ih others]
    rfl

end LatencyLog
