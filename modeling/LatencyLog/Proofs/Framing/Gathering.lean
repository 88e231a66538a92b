import LatencyLog.Proofs.Framing.UniversalLines
import Mathlib.Data.List.Basic

/-! # Gathering lines over buffers

What `gather` reads from a source that only delivers bytes for a while.

* `Source.FaultFree`: every delivery is a buffer or an interruption.
* `Source.bytes`: the bytes of the buffers.
* `returnPending`: whether a carriage return stands last, so that a line feed to come belongs to it.
* `gather_append_of_unended`, `gather_append_of_ended`: gathering takes the first piece of these
  bytes off, or holds all of them where they have no line end, wherever they are cut into buffers.
-/

namespace LatencyLog

set_option autoImplicit false

/-! ## Sources without faults -/

/-- A delivery that neither fails for good nor reports the end. -/
def Delivery.isFaultFree : Delivery → Bool
  | buffer _ => true
  | failure f => f.isInterruption
  | ended => false

def Delivery.bytes : Delivery → List UInt8
  | buffer bytes => bytes
  | failure _ => []
  | ended => []

namespace Source

/-- Every delivery is a buffer or an interruption; after the last the input has ended for ever. -/
def FaultFree (s : Source) : Prop := ∀ d ∈ s, d.isFaultFree = true

instance (s : Source) : Decidable s.FaultFree :=
  inferInstanceAs (Decidable (∀ d ∈ s, d.isFaultFree = true))

/-- The bytes that the buffers of a source hold. -/
def bytes (s : Source) : List UInt8 := s.flatMap Delivery.bytes

theorem bytes_cons (d : Delivery) (s : Source) : bytes (d :: s) = d.bytes ++ bytes s :=
  List.flatMap_cons

theorem FaultFree.head {d : Delivery} {s : Source} (h : FaultFree (d :: s)) :
    d.isFaultFree = true := h d List.mem_cons_self

theorem FaultFree.tail {d : Delivery} {s : Source} (h : FaultFree (d :: s)) : FaultFree s :=
  fun e he => h e (List.mem_cons_of_mem d he)

theorem FaultFree.buffer_cons {s : Source} (h : s.FaultFree) (bytes : List UInt8) :
    FaultFree (.buffer bytes :: s) := by
  intro d hd
  rcases List.mem_cons.mp hd with rfl | later
  · rfl
  · exact h d later

end Source

/-! ## Pending carriage returns -/

/-- Whether a line feed that follows the bytes belongs to a carriage return before it, given
whether it does so where there are no bytes. -/
def returnPending (byReturn : Bool) (bytes : List UInt8) : Bool :=
  match bytes.getLast? with
  | none => byReturn
  | some b => b == carriageReturn

theorem returnPending_nil (byReturn : Bool) : returnPending byReturn [] = byReturn := rfl

theorem returnPending_of_ne_nil {bytes : List UInt8} (h : bytes ≠ []) (first second : Bool) :
    returnPending first bytes = returnPending second bytes := by
  rw [returnPending, returnPending, List.getLast?_eq_some_getLast h]

theorem returnPending_append (byReturn : Bool) (before after : List UInt8) :
    returnPending byReturn (before ++ after) =
      returnPending (returnPending byReturn before) after := by
  by_cases h : after = []
  · rw [h, List.append_nil, returnPending_nil]
  · rw [returnPending, List.getLast?_append_of_ne_nil _ h,
      returnPending_of_ne_nil h _ byReturn, returnPending]

theorem not_mem_of_dropLineFeed {bytes : List UInt8} (h : carriageReturn ∉ dropLineFeed bytes) :
    carriageReturn ∉ bytes := by
  cases bytes with
  | nil => exact h
  | cons b rest =>
    by_cases feed : b = lineFeed
    · rw [dropLineFeed, if_pos feed] at h
      intro member
      rcases List.mem_cons.mp member with first | inside
      · rw [feed] at first
        exact absurd first (by decide)
      · exact h inside
    · rwa [dropLineFeed, if_neg feed] at h

theorem returnPending_of_cut_unended {held bytes line : List UInt8} {byReturn : Bool}
    (h : cut held (afterLine byReturn bytes) = .unended line) :
    returnPending byReturn bytes = (byReturn && bytes.isEmpty) := by
  have free : carriageReturn ∉ bytes := by
    cases byReturn with
    | false => exact (freeOfEnds_of_cut_unended h).2.return_notMem
    | true => exact not_mem_of_dropLineFeed (freeOfEnds_of_cut_unended h).2.return_notMem
  by_cases empty : bytes = []
  · rw [empty, returnPending_nil, List.isEmpty_nil, Bool.and_true]
  · have last : bytes.getLast empty ≠ carriageReturn := fun eq =>
      free (eq ▸ List.getLast_mem empty)
    have filled : bytes.isEmpty = false := by simpa using empty
    rw [returnPending, List.getLast?_eq_some_getLast empty, filled, Bool.and_false]
    exact beq_eq_false_iff_ne.mpr last

theorem exists_append_of_cut_ended {held bytes line rest : List UInt8} {byReturn : Bool}
    (h : cut held bytes = .ended line byReturn rest) :
    ∃ body b, bytes = body ++ b :: rest ∧ (b == carriageReturn) = byReturn := by
  fun_induction cut held bytes with
  | case1 held => cases h
  | case2 held later =>
    cases h
    exact ⟨[], lineFeed, rfl, rfl⟩
  | case3 held later =>
    cases h
    exact ⟨[], carriageReturn, rfl, rfl⟩
  | case4 held b later notFeed notReturn ih =>
    obtain ⟨body, last, split, kind⟩ := ih h
    exact ⟨b :: body, last, by rw [split]; rfl, kind⟩

theorem exists_append_of_afterLine (byReturn : Bool) (bytes : List UInt8) :
    ∃ skipped, bytes = skipped ++ afterLine byReturn bytes := by
  cases byReturn with
  | false => exact ⟨[], rfl⟩
  | true =>
    cases bytes with
    | nil => exact ⟨[], rfl⟩
    | cons b rest =>
      by_cases feed : b = lineFeed
      · exact ⟨[b], by simp [afterLine, dropLineFeed, feed]⟩
      · exact ⟨[], by simp [afterLine, dropLineFeed, feed]⟩

theorem returnPending_of_cut_ended {held bytes line rest : List UInt8} {before byReturn : Bool}
    (h : cut held (afterLine before bytes) = .ended line byReturn rest) :
    returnPending byReturn rest = returnPending before bytes := by
  obtain ⟨body, b, split, kind⟩ := exists_append_of_cut_ended h
  obtain ⟨skipped, whole⟩ := exists_append_of_afterLine before bytes
  have last : returnPending before (skipped ++ body ++ [b]) = byReturn := by
    rw [returnPending, List.getLast?_concat]
    exact kind
  calc returnPending byReturn rest
      = returnPending before (skipped ++ body ++ [b] ++ rest) := by
        rw [returnPending_append, last]
    _ = returnPending before bytes := by
        rw [whole, split]
        simp

/-! ## Gathering -/

theorem gather_buffer (byReturn : Bool) (held bytes : List UInt8) (later : Source) :
    gather byReturn held (.buffer bytes :: later) =
      match cut held (afterLine byReturn bytes) with
      | .ended line byReturn rest => ⟨.line line.reverse, .buffer rest :: later, byReturn⟩
      | .unended held => gather (byReturn && bytes.isEmpty) held later := rfl

theorem gather_interruption {f : ReadFailure} (h : f.isInterruption = true) (byReturn : Bool)
    (held : List UInt8) (later : Source) :
    gather byReturn held (.failure f :: later) = gather byReturn held later := by
  rw [gather, if_pos h]

/-- A buffer without a line end begins the first piece, and the bytes after it go on with it. -/
theorem pieces_after_unended {held bytes whole more line : List UInt8} {byReturn : Bool}
    {others : List (List UInt8)} (h : cut held (afterLine byReturn bytes) = .unended whole)
    (hp : pieces (afterLine byReturn (bytes ++ more)) = line :: others) :
    ∃ tail, pieces (afterLine (byReturn && bytes.isEmpty) more) = tail :: others ∧
      line = afterLine byReturn bytes ++ tail := by
  have extended : pieces (afterLine byReturn (bytes ++ more)) =
      (pieces (afterLine (byReturn && bytes.isEmpty) more)).modifyHead
        (afterLine byReturn bytes ++ ·) := by
    by_cases empty : bytes = []
    · subst empty
      have nothing : afterLine byReturn [] = [] := by cases byReturn <;> rfl
      rw [List.nil_append, nothing, List.isEmpty_nil, Bool.and_true]
      cases pieces (afterLine byReturn more) <;> rfl
    · have filled : bytes.isEmpty = false := by simpa using empty
      rw [afterLine_append_of_ne_nil empty,
        pieces_append_of_free (freeOfEnds_of_cut_unended h).2 more, filled, Bool.and_false]
      rfl
  rw [hp] at extended
  cases first : pieces (afterLine (byReturn && bytes.isEmpty) more) with
  | nil => exact absurd first (pieces_ne_nil _)
  | cons tail rest =>
    rw [first] at extended
    obtain ⟨hline, hothers⟩ := List.cons.inj extended
    exact ⟨tail, by rw [hothers], hline⟩

/-- A buffer with a line end is not empty, so that nothing after it reaches its first line. -/
theorem pieces_after_ended {held bytes whole rest more line : List UInt8} {before byReturn : Bool}
    {others : List (List UInt8)}
    (h : cut held (afterLine before bytes) = .ended whole byReturn rest)
    (hp : pieces (afterLine before (bytes ++ more)) = line :: others) :
    whole = line.reverse ++ held ∧ others = pieces (afterLine byReturn (rest ++ more)) := by
  have nonempty : bytes ≠ [] := by
    rintro rfl
    cases before <;> cases h
  obtain ⟨body, rfl, -, split⟩ := pieces_of_cut_ended (cut_append_of_ended h more)
  rw [afterLine_append_of_ne_nil nonempty, split] at hp
  obtain ⟨rfl, rfl⟩ := List.cons.inj hp
  exact ⟨rfl, rfl⟩

theorem gather_append_of_unended {P : Source} (hP : P.FaultFree) (R : Source) {byReturn : Bool}
    {last : List UInt8} (h : pieces (afterLine byReturn P.bytes) = [last]) (held : List UInt8) :
    gather byReturn held (P ++ R) =
      gather (returnPending byReturn P.bytes) (last.reverse ++ held) R := by
  induction P generalizing byReturn held last with
  | nil =>
    have empty : last = [] := by cases byReturn <;> exact (List.cons.inj h).1.symm
    subst empty
    rfl
  | cons d P ih =>
    rw [Source.bytes_cons] at h ⊢
    cases d with
    | ended => cases hP.head
    | failure f =>
      rw [List.cons_append, gather_interruption hP.head]
      exact ih hP.tail h held
    | buffer bytes =>
      rw [List.cons_append, gather_buffer]
      rw [Delivery.bytes] at h ⊢
      cases hcut : cut held (afterLine byReturn bytes) with
      | ended whole ret rest =>
        exact absurd (pieces_after_ended hcut h).2.symm (pieces_ne_nil _)
      | unended whole =>
        obtain ⟨tail, hp, rfl⟩ := pieces_after_unended hcut h
        simp only
        rw [ih hP.tail hp, returnPending_append, returnPending_of_cut_unended hcut,
          (freeOfEnds_of_cut_unended hcut).1, List.reverse_append, List.append_assoc]

theorem gather_append_of_ended {P : Source} (hP : P.FaultFree) (R : Source) {byReturn : Bool}
    {line : List UInt8} {more : List (List UInt8)} (hmore : more ≠ [])
    (h : pieces (afterLine byReturn P.bytes) = line :: more) (held : List UInt8) :
    ∃ later : Source, ∃ ret, later.FaultFree ∧
      gather byReturn held (P ++ R) = ⟨.line (held.reverse ++ line), later ++ R, ret⟩ ∧
      pieces (afterLine ret later.bytes) = more ∧
      returnPending ret later.bytes = returnPending byReturn P.bytes := by
  induction P generalizing byReturn held line with
  | nil => cases byReturn <;> exact absurd (List.cons.inj h).2.symm hmore
  | cons d P ih =>
    rw [Source.bytes_cons] at h ⊢
    cases d with
    | ended => cases hP.head
    | failure f =>
      rw [List.cons_append, gather_interruption hP.head]
      exact ih hP.tail h held
    | buffer bytes =>
      rw [List.cons_append, gather_buffer]
      rw [Delivery.bytes] at h ⊢
      cases hcut : cut held (afterLine byReturn bytes) with
      | ended whole ret rest =>
        obtain ⟨rfl, rfl⟩ := pieces_after_ended hcut h
        refine ⟨.buffer rest :: P, ret, hP.tail.buffer_cons rest, ?_, rfl, ?_⟩
        · simp
        · rw [Source.bytes_cons, Delivery.bytes, returnPending_append, returnPending_append,
            returnPending_of_cut_ended hcut]
      | unended whole =>
        obtain ⟨tail, hp, rfl⟩ := pieces_after_unended hcut h
        obtain ⟨later, ret, free, gathered, rest, pending⟩ := ih hP.tail hp whole
        refine ⟨later, ret, free, ?_, rest, ?_⟩
        · simp only
          rw [gathered, (freeOfEnds_of_cut_unended hcut).1, List.reverse_append,
            List.reverse_reverse, List.append_assoc]
        · rw [pending, returnPending_append, returnPending_of_cut_unended hcut]

end LatencyLog
