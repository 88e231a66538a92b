import LatencyLog.Proofs.Framing.Answers
import LatencyLog.Proofs.Framing.Steps
import Mathlib.Data.Set.Card

/-! # Streams come to their end

A reading goes round one attempt after the other, and each of them uses up a delivery or a byte.
Every call uses up a line end, a failure or a reported end, or all that is left, so that only
finitely many calls are answered otherwise than by the end of the input.

* `Underway.attempt`: one attempt to read. It ends the reading, or the reading goes on.
* `Underway.run_eq_gather`: the attempts come to what `gather` reads.
* `Source.stops`: the line ends, failures and reported ends to come.
* `stops_gather_lt`: a reading uses up one of them or all that is left.
* `LineStream.runs_out`: what every call and every run uses up.
-/

namespace LatencyLog

set_option autoImplicit false

/-! ## Attempts -/

/-- A reading that has not ended: whether a line feed that comes next belongs to the carriage return
before it, the bytes that the line begins with, and the source that is left. -/
structure Underway where
  afterReturn : Bool
  held : List UInt8
  source : Source
  deriving DecidableEq

namespace Underway

/-- One attempt to read. It ends the reading, or the reading goes on. -/
def attempt (u : Underway) : Gathered ⊕ Underway :=
  match u.source with
  | [] => .inl ⟨unfinished u.held, [], u.afterReturn⟩
  | .ended :: later => .inl ⟨unfinished u.held, later, u.afterReturn⟩
  | .failure f :: later =>
    if f.isInterruption then .inr { u with source := later }
    else .inl ⟨.failed f, later, u.afterReturn⟩
  | .buffer [] :: later => .inr { u with source := later }
  | .buffer (b :: rest) :: later =>
    if u.afterReturn = true ∧ b = lineFeed then .inr ⟨false, u.held, .buffer rest :: later⟩
    else
      match cut u.held (b :: rest) with
      | .ended line byReturn rest => .inl ⟨.line line.reverse, .buffer rest :: later, byReturn⟩
      | .unended held => .inr ⟨false, held, later⟩

/-- What a number of attempts come to. -/
def run : Nat → Underway → Option Gathered
  | 0, _ => none
  | n + 1, u =>
    match u.attempt with
    | .inl g => some g
    | .inr v => v.run n

def gathered (u : Underway) : Gathered := gather u.afterReturn u.held u.source

/-- What attempts can use up: deliveries, and what they deliver. -/
def work (u : Underway) : Nat := u.source.length + u.source.weight

/-- An attempt ends a reading with what is gathered, or leaves less work with the same end. -/
theorem attempt_spec (u : Underway) :
    match u.attempt with
    | .inl g => u.gathered = g
    | .inr v => u.gathered = v.gathered ∧ v.work < u.work := by
  obtain ⟨ret, held, source⟩ := u
  cases source with
  | nil => rfl
  | cons d later =>
    cases d with
    | ended => rfl
    | failure f =>
      simp only [attempt, gathered]
      by_cases passed : f.isInterruption = true
      · simp only [passed, if_true, gather, work, Source.weight_cons, List.length_cons]
        exact ⟨trivial, by omega⟩
      · simp only [passed, gather]
        rfl
    | buffer bytes =>
      cases bytes with
      | nil =>
        refine ⟨gather_emptyBuffer held later ret, ?_⟩
        simp only [work, Source.weight_cons, List.length_cons]
        omega
      | cons b rest =>
        by_cases passes : ret = true ∧ b = lineFeed
        · obtain ⟨rfl, rfl⟩ := passes
          refine ⟨gather_passedFeed held rest later, ?_⟩
          simp only [work, Source.weight_cons, Delivery.weight, List.length_cons]
          omega
        · have kept : afterLine ret (b :: rest) = b :: rest := by
            cases ret with
            | false => rfl
            | true => exact if_neg fun feed => passes ⟨rfl, feed⟩
          simp only [attempt, gathered, if_neg passes, gather_buffer, kept]
          cases cut held (b :: rest) with
          | ended line byReturn rest => rfl
          | unended line =>
            refine ⟨by rw [List.isEmpty_cons, Bool.and_false], ?_⟩
            simp only [work, Source.weight_cons, List.length_cons]
            omega

/-- The attempts come to what is gathered, and no more of them are made than there is work to do. -/
theorem run_eq_gather (u : Underway) {n : Nat} (enough : u.work < n) :
    u.run n = some u.gathered := by
  induction n generalizing u with
  | zero => exact absurd enough (Nat.not_lt_zero _)
  | succ n ih =>
    have spec := u.attempt_spec
    rw [run]
    cases h : u.attempt with
    | inl g =>
      rw [h] at spec
      exact congrArg some spec.symm
    | inr v =>
      rw [h] at spec
      obtain ⟨same, less⟩ := spec
      rw [same]
      exact ih v (by omega)

end Underway

/-! ## What a reading uses up -/

/-- The line ends in a delivery, or one for a failure or a reported end. -/
def Delivery.stops : Delivery → Nat
  | buffer bytes => bytes.countP fun b => b = lineFeed ∨ b = carriageReturn
  | failure f => if f.isInterruption then 0 else 1
  | ended => 1

/-- The line ends, failures and reported ends to come. -/
def Source.stops (s : Source) : Nat := (s.map Delivery.stops).sum

theorem Source.stops_cons (d : Delivery) (s : Source) : stops (d :: s) = d.stops + s.stops :=
  List.sum_cons

theorem stops_of_cut_ended {held bytes line rest : List UInt8} {byReturn : Bool}
    (h : cut held bytes = .ended line byReturn rest) :
    (Delivery.buffer rest).stops < (Delivery.buffer bytes).stops := by
  fun_induction cut held bytes with
  | case1 held => cases h
  | case2 held later =>
    cases h
    simp [Delivery.stops]
  | case3 held later =>
    cases h
    simp [Delivery.stops]
  | case4 held b later notFeed notReturn ih =>
    refine (ih h).trans_le ?_
    simp [Delivery.stops, notFeed, notReturn]

theorem stops_afterLine_le (byReturn : Bool) (bytes : List UInt8) :
    (Delivery.buffer (afterLine byReturn bytes)).stops ≤ (Delivery.buffer bytes).stops := by
  cases byReturn with
  | false => exact le_rfl
  | true =>
    cases bytes with
    | nil => exact le_rfl
    | cons b rest =>
      simp only [afterLine, if_true, dropLineFeed]
      split
      · exact (List.sublist_cons_self b rest).countP_le
      · exact le_rfl

/-- A reading uses up a line end, a failure or a reported end, or all that is left. -/
theorem stops_gather_lt (ret : Bool) (held : List UInt8) (source : Source) :
    (gather ret held source).source.stops < source.stops ∨
      (gather ret held source).source = [] := by
  induction source generalizing ret held with
  | nil => exact .inr rfl
  | cons d later ih =>
    rw [Source.stops_cons]
    cases d with
    | ended =>
      left
      simp only [gather, Delivery.stops]
      omega
    | failure f =>
      by_cases passed : f.isInterruption = true
      · rw [gather_interruption passed, Delivery.stops, if_pos passed, Nat.zero_add]
        exact ih ret held
      · left
        simp only [gather, Delivery.stops, if_neg passed]
        omega
    | buffer bytes =>
      have fewer := stops_afterLine_le ret bytes
      rw [gather_buffer]
      cases split : cut held (afterLine ret bytes) with
      | ended line byReturn rest =>
        have used := stops_of_cut_ended split
        left
        simp only [Source.stops_cons]
        omega
      | unended line =>
        refine (ih (ret && bytes.isEmpty) line).imp_left fun less => ?_
        exact less.trans_le (Nat.le_add_left _ _)

/-- Nothing is read of a source that has nothing to give. -/
theorem gather_of_weightless {source : Source} (h : source.weight = 0) (ret : Bool) :
    gather ret [] source = ⟨.exhausted, [], ret⟩ := by
  induction source with
  | nil => rfl
  | cons d later ih =>
    rw [Source.weight_cons, Nat.add_eq_zero_iff] at h
    obtain ⟨nothing, rest⟩ := h
    cases d with
    | ended => cases nothing
    | failure f =>
      have passed : f.isInterruption = true := by
        by_contra final
        simp [Delivery.weight, final] at nothing
      rw [gather_interruption passed, ih rest]
    | buffer bytes =>
      rw [Delivery.weight, List.length_eq_zero_iff] at nothing
      rw [nothing, gather_emptyBuffer, ih rest]

namespace LineStream

variable (s : LineStream)

/-! ## Runs -/

theorem source_next : s.next.2.source = (gather s.afterReturn [] s.source).source := by
  rcases h : gather s.afterReturn [] s.source with ⟨reading, source, ret⟩
  cases reading with
  | line bytes => rw [next_of_line h]
  | failed f => rw [next_of_failed h]
  | exhausted => rw [next_of_exhausted h]

/-- More calls than there are line ends, failures and reported ends leave nothing. -/
theorem source_after_eq_nil {k : Nat} (many : s.source.stops < k) : (s.after k).source = [] := by
  induction k generalizing s with
  | zero => exact absurd many (Nat.not_lt_zero _)
  | succ k ih =>
    rw [after]
    rcases stops_gather_lt s.afterReturn [] s.source with less | drained
    · rw [← source_next] at less
      exact ih s.next.2 (by omega)
    · rw [← source_next] at drained
      cases next : s.next.2 with
      | mk source n ret =>
        rw [next] at drained
        rw [show source = [] from drained, after_drained]

/-- Once nothing is left to give, every call is answered by the end of the input. -/
theorem answer_of_weightless {k : Nat} (h : (s.after k).source.weight = 0) {j : Nat}
    (later : k ≤ j) :
    s.answer j = none ∧ (s.after j).answered = (s.after k).answered := by
  have called : (s.after k).next = (none, ⟨[], (s.after k).answered, (s.after k).afterReturn⟩) :=
    next_of_exhausted (gather_of_weightless h _)
  rcases Nat.eq_or_lt_of_le later with rfl | after_
  · exact ⟨congrArg Prod.fst called, rfl⟩
  · have drained : s.after (k + 1) = ⟨[], (s.after k).answered, (s.after k).afterReturn⟩ := by
      rw [after_succ, called]
    obtain ⟨answered, count, -⟩ := answer_of_drained drained after_
    exact ⟨answered, count⟩

/-- The calls that are answered otherwise than by the end of the input. -/
def answeredCalls : Set Nat := {k | (s.answer k).isSome}

theorem answeredCalls_subset : s.answeredCalls ⊆ Finset.range (s.source.stops + 1) := by
  intro k answered
  by_contra beyond
  rw [Finset.coe_range, Set.mem_Iio, not_lt] at beyond
  have drained := s.source_after_eq_nil beyond
  have weightless : (s.after k).source.weight = 0 := by
    rw [drained]
    rfl
  have nothing := (s.answer_of_weightless weightless le_rfl).1
  have answered : (s.answer k).isSome := answered
  rw [nothing] at answered
  cases answered

/-- **Every stream comes to its end.** Each call is answered after finitely many attempts to read.
An answer other than the end of the input uses up a byte, a failure or a reported end, and there are
no more such answers than line ends, failures and reported ends, and one. Once the source has
nothing to give, and after as many calls at the latest, the end of the input is the only answer, and
no answer is counted any more. -/
theorem runs_out :
    (∃ n ≤ s.source.length + s.source.weight + 1,
      Underway.run n ⟨s.afterReturn, [], s.source⟩ = some (gather s.afterReturn [] s.source)) ∧
    (∀ answer after, s.next = (some answer, after) → after.source.weight < s.source.weight) ∧
    s.answeredCalls.encard ≤ (s.source.stops + 1 : Nat) ∧
    (∀ k, (s.after k).source.weight = 0 → ∀ j, k ≤ j →
      s.answer j = none ∧ (s.after j).answered = (s.after k).answered) ∧
    ∀ k, s.source.stops < k → (s.after k).source = [] := by
  refine ⟨⟨_, le_rfl, Underway.run_eq_gather _ (Nat.lt_succ_self _)⟩,
    fun answer after => weight_next_lt, ?_, fun k h j => s.answer_of_weightless h,
    fun k => s.source_after_eq_nil⟩
  calc s.answeredCalls.encard
      ≤ (Finset.range (s.source.stops + 1) : Set Nat).encard :=
        Set.encard_le_encard s.answeredCalls_subset
    _ = (s.source.stops + 1 : Nat) := by
        rw [Set.encard_coe_eq_coe_finsetCard, Finset.card_range]

/-- A line end and a line without one give two answers, which is as many as there can be. -/
theorem runs_out_after_unended_line :
    let s := ofSource [.buffer [0x0A, 0x31]]
    s.source.stops = 1 ∧ (s.answer 0).isSome ∧ (s.answer 1).isSome ∧ s.answeredCalls.encard ≤ 2 ∧
      ∀ k, 2 ≤ k → s.answer k = none := by
  intro s
  have stops : s.source.stops = 1 := by decide
  obtain ⟨-, -, few, drained, final⟩ := runs_out s
  refine ⟨stops, by decide, by decide, few, fun k later => (drained 2 ?_ k later).1⟩
  rw [final 2 (by decide)]
  rfl

end LineStream

end LatencyLog
