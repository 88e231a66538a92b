/-! # UTF-8

* `Utf8.Fault`: why bytes are no UTF-8 text, and where.
* `Utf8.Begun`: a sequence of more than one byte, begun and not ended. It holds the range of the
  byte it needs next, so that overlong forms, surrogates and values above `0x10FFFF` are refused at
  their second byte.
* `Utf8.decode`: the characters that bytes encode.
-/

namespace LatencyLog.Utf8

set_option autoImplicit false

/-! ## Faults -/

/-- Why bytes are no UTF-8 text. -/
inductive Fault where
  /-- From `index` on, `length` bytes begin a sequence that the byte after them cannot continue;
  or one byte begins none. -/
  | invalid (index length : Nat)
  /-- The bytes end within the sequence that begins at `index`. -/
  | incomplete (index : Nat)
  deriving DecidableEq

def Fault.message : Fault → String
  | invalid index length =>
    "invalid utf-8 sequence of " ++ toString length ++ " bytes from index " ++ toString index
  | incomplete index => "incomplete utf-8 byte sequence from index " ++ toString index

/-! ## Sequences -/

/-- A sequence begun at `start` and not ended: `seen` bytes of it, of which the value is `bits`.
The next byte lies between `low` and `high`, and `more` others follow it. -/
structure Begun where
  start : Nat
  seen : Nat
  bits : Nat
  low : Nat
  high : Nat
  more : Nat
  deriving DecidableEq

/-- What the first byte of a sequence tells. -/
inductive Lead where
  | character (c : Char)
  | begins (bits low high more : Nat)
  | refused
  deriving DecidableEq

/-- The meaning of a first byte. -/
def lead (b : Nat) : Lead :=
  if b < 0x80 then .character (Char.ofNat b)
  else if b < 0xC2 then .refused
  else if b < 0xE0 then .begins (b - 0xC0) 0x80 0xBF 0
  else if b = 0xE0 then .begins (b - 0xE0) 0xA0 0xBF 1
  else if b = 0xED then .begins (b - 0xE0) 0x80 0x9F 1
  else if b < 0xF0 then .begins (b - 0xE0) 0x80 0xBF 1
  else if b = 0xF0 then .begins (b - 0xF0) 0x90 0xBF 2
  else if b < 0xF4 then .begins (b - 0xF0) 0x80 0xBF 2
  else if b = 0xF4 then .begins (b - 0xF0) 0x80 0x8F 2
  else .refused

/-! ## Decoding -/

/-- Decodes bytes that begin at `index`, after the sequence `begun` and the characters `done`, the
last of them first. -/
def decodeFrom (index : Nat) (begun : Option Begun) (done : List Char) :
    List UInt8 → Except Fault (List Char)
  | [] =>
    match begun with
    | none => .ok done.reverse
    | some s => .error (.incomplete s.start)
  | b :: rest =>
    match begun with
    | none =>
      match lead b.toNat with
      | .character c => decodeFrom (index + 1) none (c :: done) rest
      | .begins bits low high more =>
        decodeFrom (index + 1) (some ⟨index, 1, bits, low, high, more⟩) done rest
      | .refused => .error (.invalid index 1)
    | some s =>
      if s.low ≤ b.toNat ∧ b.toNat ≤ s.high then
        let bits := s.bits * 64 + (b.toNat - 0x80)
        match s.more with
        | 0 => decodeFrom (index + 1) none (Char.ofNat bits :: done) rest
        | more + 1 =>
          decodeFrom (index + 1) (some ⟨s.start, s.seen + 1, bits, 0x80, 0xBF, more⟩) done rest
      else .error (.invalid s.start s.seen)

/-- The characters that bytes encode. -/
def decode (bytes : List UInt8) : Except Fault (List Char) := decodeFrom 0 none [] bytes

end LatencyLog.Utf8
