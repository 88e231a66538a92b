import LatencyLog.Source

/-! # Lines of bytes

A line ends at a line feed, at a carriage return, or at both in that order.

* `cut`: some bytes cut at their first line end.
* `Gathered`: what reading up to the next line end gives, and what is left to read.
* `gather`: reads up to the next line end, over as many deliveries as it takes. A failure loses the
  bytes gathered before it, an interruption is passed over, and at the end of the input the bytes
  gathered are a line.

`weight_gather_lt` says that a line or a failure uses up some of the source.
-/

namespace LatencyLog

set_option autoImplicit false

/-! ## Line ends -/

def lineFeed : UInt8 := 0x0A

def carriageReturn : UInt8 := 0x0D

/-- Bytes cut at their first line end. The bytes before it are held with the last of them first. -/
inductive Cut where
  /-- A line whose end is a carriage return or not, and the bytes after it. -/
  | ended (held : List UInt8) (byReturn : Bool) (rest : List UInt8)
  /-- A line without its end. -/
  | unended (held : List UInt8)
  deriving DecidableEq

/-- Cuts the line that goes on with some bytes, `held` being what it begins with. -/
def cut (held : List UInt8) : List UInt8 → Cut
  | [] => .unended held
  | b :: rest =>
    if b = lineFeed then .ended held false rest
    else if b = carriageReturn then .ended held true rest
    else cut (b :: held) rest

/-- Bytes without the line feed that they begin with. -/
def dropLineFeed : List UInt8 → List UInt8
  | [] => []
  | b :: rest => if b = lineFeed then rest else b :: rest

/-! ## Gathering a line -/

inductive Reading where
  | line (bytes : List UInt8)
  | failed (f : ReadFailure)
  | exhausted
  deriving DecidableEq

/-- A reading, the source after it, and whether a line feed that comes next belongs to the carriage
return that ended the line. -/
structure Gathered where
  reading : Reading
  source : Source
  afterReturn : Bool
  deriving DecidableEq

/-- The reading at the end of the input, with an unfinished line held. -/
def unfinished (held : List UInt8) : Reading :=
  if held.isEmpty then .exhausted else .line held.reverse

/-- Reads on to the next line end, `held` being what the line begins with. -/
def gather (afterReturn : Bool) (held : List UInt8) : Source → Gathered
  | [] => ⟨unfinished held, [], afterReturn⟩
  | .ended :: later => ⟨unfinished held, later, afterReturn⟩
  | .failure f :: later =>
    if f.isInterruption then gather afterReturn held later
    else ⟨.failed f, later, afterReturn⟩
  | .buffer bytes :: later =>
    match cut held (if afterReturn then dropLineFeed bytes else bytes) with
    | .ended line byReturn rest => ⟨.line line.reverse, .buffer rest :: later, byReturn⟩
    | .unended held => gather (afterReturn && bytes.isEmpty) held later

/-! ## Progress -/

theorem length_of_cut_ended {held bytes line rest : List UInt8} {byReturn : Bool}
    (h : cut held bytes = .ended line byReturn rest) : rest.length < bytes.length := by
  induction bytes generalizing held with
  | nil => cases h
  | cons b bytes ih =>
    rw [cut] at h
    split at h
    · cases h
      exact Nat.lt_succ_self _
    · split at h
      · cases h
        exact Nat.lt_succ_self _
      · exact Nat.lt_succ_of_lt (ih h)

theorem length_of_cut_unended {held bytes line : List UInt8}
    (h : cut held bytes = .unended line) : line.length = held.length + bytes.length := by
  induction bytes generalizing held with
  | nil =>
    cases h
    rfl
  | cons b bytes ih =>
    rw [cut] at h
    split at h
    · cases h
    · split at h
      · cases h
      · have := ih h
        simp only [List.length_cons] at this ⊢
        omega

theorem length_dropLineFeed_le (bytes : List UInt8) :
    (dropLineFeed bytes).length ≤ bytes.length := by
  cases bytes with
  | nil => exact Nat.le_refl _
  | cons b rest =>
    rw [dropLineFeed]
    split
    · exact Nat.le_succ _
    · exact Nat.le_refl _

theorem unfinished_eq_exhausted_or_pos (held : List UInt8) :
    unfinished held = .exhausted ∨ 0 < held.length := by
  cases held with
  | nil => exact Or.inl rfl
  | cons b rest => exact Or.inr (Nat.succ_pos _)

/-- Reading a line or a failure uses up some of the source, or of the bytes held. -/
theorem weight_gather_lt (afterReturn : Bool) (held : List UInt8) (source : Source) :
    (gather afterReturn held source).reading = .exhausted ∨
      (gather afterReturn held source).source.weight < source.weight + held.length := by
  induction source generalizing afterReturn held with
  | nil => simpa [gather, Source.weight] using unfinished_eq_exhausted_or_pos held
  | cons delivery later ih =>
    rw [Source.weight_cons]
    cases delivery with
    | ended =>
      right
      simp only [gather, Delivery.weight]
      omega
    | failure f =>
      rw [gather]
      split
      · rcases ih afterReturn held with h | h
        · exact Or.inl h
        · right
          omega
      next h =>
        right
        simp only [Delivery.weight, h]
        simp
        omega
    | buffer bytes =>
      have shorter :
          (if afterReturn then dropLineFeed bytes else bytes).length ≤ bytes.length := by
        split
        · exact length_dropLineFeed_le bytes
        · exact Nat.le_refl _
      rw [gather]
      split
      next line byReturn rest h =>
        have := length_of_cut_ended h
        right
        simp only [Source.weight_cons, Delivery.weight]
        omega
      next line h =>
        have := length_of_cut_unended h
        rcases ih (afterReturn && bytes.isEmpty) line with h | h
        · exact Or.inl h
        · right
          simp only [Delivery.weight]
          omega

end LatencyLog
