/-! # Sources of bytes

* `ReadFailure`: a failure to open or to read, by its kind and its text.
* `Delivery`: what one attempt to read gives: a buffer of bytes, a failure, or a report that the
  input has ended.
* `Source`: the deliveries to come; after the last of them the input has ended for ever.
* `Source.weight`: the bytes, failures and reports of the end still to come.
-/

namespace LatencyLog

set_option autoImplicit false

/-! ## Failures -/

/-- The kind of a failure. -/
inductive FailureKind where
  | interrupted
  | invalidData
  | invalidInput
  | invalidFilename
  | notFound
  | notADirectory
  | isADirectory
  | other (name : String)
  deriving DecidableEq

/-- A failure to open or to read. -/
structure ReadFailure where
  kind : FailureKind
  message : String
  deriving DecidableEq

/-- An interrupted read is tried again. -/
def ReadFailure.isInterruption (f : ReadFailure) : Bool := f.kind == .interrupted

/-! ## Deliveries -/

/-- What one attempt to read gives. A buffer without bytes gives nothing. -/
inductive Delivery where
  | buffer (bytes : List UInt8)
  | failure (f : ReadFailure)
  | ended
  deriving DecidableEq

/-- What a delivery adds to the weight of a source. -/
def Delivery.weight : Delivery → Nat
  | buffer bytes => bytes.length
  | failure f => if f.isInterruption then 0 else 1
  | ended => 1

/-- The deliveries to come. -/
abbrev Source := List Delivery

namespace Source

/-- The bytes to come, and the failures and reports of the end that no reader passes over. -/
def weight (s : Source) : Nat := s.foldr (fun d rest => d.weight + rest) 0

/-- The source that delivers all bytes at once. -/
def ofBytes (bytes : List UInt8) : Source := [.buffer bytes]

/-- Cuts bytes into buffers of `capacity` bytes; `room` more bytes go into the buffer begun, which
is held with the last byte first, as are the deliveries `done`. -/
def fill (capacity room : Nat) (held : List UInt8) (done : Source) : List UInt8 → Source
  | [] => (.buffer held.reverse :: done).reverse
  | b :: rest =>
    match room with
    | 0 => fill capacity (capacity - 1) [b] (.buffer held.reverse :: done) rest
    | room + 1 => fill capacity room (b :: held) done rest

/-- The source that delivers bytes in buffers of `capacity` bytes, or of one byte if that is
zero. -/
def inBuffers (capacity : Nat) (bytes : List UInt8) : Source := fill capacity capacity [] [] bytes

theorem weight_cons (d : Delivery) (s : Source) : weight (d :: s) = d.weight + weight s := rfl

end Source

end LatencyLog
