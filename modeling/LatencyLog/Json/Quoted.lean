import LatencyLog.Json.Fault

/-! # Quoted texts

A quoted text is read one character at a time, from after the quote that opens it.

* `Json.Quoted`: the characters read so far and whether an escape is under way.
* `Json.Quoted.step`: the text with one more character, or the text that the character closes.

The four bytes after `\u` are read before they are judged, whatever characters they belong to.
-/

namespace LatencyLog.Json

set_option autoImplicit false

/-! ## Hexadecimal digits -/

def hexDigit? (c : Char) : Option Nat :=
  if '0' ≤ c ∧ c ≤ '9' then some (c.toNat - '0'.toNat)
  else if 'a' ≤ c ∧ c ≤ 'f' then some (c.toNat - 'a'.toNat + 10)
  else if 'A' ≤ c ∧ c ≤ 'F' then some (c.toNat - 'A'.toNat + 10)
  else none

/-- A number with one more hexadecimal digit; `none` as soon as one character is no digit. -/
def withHexDigit? (code : Option Nat) (c : Char) : Option Nat :=
  match code, hexDigit? c with
  | some n, some d => some (n * 16 + d)
  | _, _ => none

/-! ## Surrogates -/

def isHighSurrogate (code : Nat) : Bool := decide (0xD800 ≤ code) && decide (code ≤ 0xDBFF)

def isLowSurrogate (code : Nat) : Bool := decide (0xDC00 ≤ code) && decide (code ≤ 0xDFFF)

def surrogatePair (high low : Nat) : Char :=
  Char.ofNat (0x10000 + (high - 0xD800) * 0x400 + (low - 0xDC00))

/-! ## Reading -/

inductive Escape where
  | absent
  | begun
  /-- After `seen` bytes of a group, with their value if they are digits, and after the high
  surrogate `high` if there is one. -/
  | group (high : Option Nat) (seen : Nat) (code : Option Nat)
  | lowBackslash (high : Nat)
  /-- After a high surrogate and a backslash. -/
  | lowLetter (high : Nat)
  deriving DecidableEq

/-- A quoted text begun: its characters, the last of them first. -/
structure Quoted where
  done : List Char
  escape : Escape
  deriving DecidableEq

namespace Quoted

def start : Quoted := ⟨[], .absent⟩

/-- A text with one more character. -/
inductive Progress where
  | pending (q : Quoted)
  | closed (text : String)
  deriving DecidableEq

def push (q : Quoted) (c : Char) : Progress := .pending ⟨c :: q.done, .absent⟩

def await (q : Quoted) (e : Escape) : Progress := .pending ⟨q.done, e⟩

/-- The character that a letter after a backslash stands for. -/
def escaped? (c : Char) : Option Char :=
  if c = '"' ∨ c = '\\' ∨ c = '/' then some c
  else if c = 'b' then some '\x08'
  else if c = 'f' then some '\x0c'
  else if c = 'n' then some '\n'
  else if c = 'r' then some '\r'
  else if c = 't' then some '\t'
  else none

def unit (q : Quoted) (high : Option Nat) (code : Nat) : Except Halt Progress :=
  match high with
  | none =>
    if isLowSurrogate code then .error ⟨.loneSurrogate, 1⟩
    else if isHighSurrogate code then .ok (q.await (.lowBackslash code))
    else .ok (q.push (Char.ofNat code))
  | some h =>
    if isLowSurrogate code then .ok (q.push (surrogatePair h code))
    else .error ⟨.loneSurrogate, 1⟩

def groupCharacter (q : Quoted) (high : Option Nat) (seen : Nat) (code : Option Nat) (c : Char) :
    Except Halt Progress :=
  let code := withHexDigit? code c
  if seen + c.utf8Size < 4 then .ok (q.await (.group high (seen + c.utf8Size) code))
  else
    match code with
    | some n => q.unit high n
    | none => .error ⟨.invalidEscape, 4 - seen⟩

/-- A text with one more character. -/
def step (q : Quoted) (c : Char) : Except Halt Progress :=
  match q.escape with
  | .absent =>
    if c = '"' then .ok (.closed (String.ofList q.done.reverse))
    else if c = '\\' then .ok (q.await .begun)
    else if c.toNat < 0x20 then .error ⟨.controlCharacter, 1⟩
    else .ok (q.push c)
  | .begun =>
    if c = 'u' then .ok (q.await (.group none 0 (some 0)))
    else
      match escaped? c with
      | some e => .ok (q.push e)
      | none => .error ⟨.invalidEscape, 1⟩
  | .group high seen code => q.groupCharacter high seen code c
  | .lowBackslash high =>
    if c = '\\' then .ok (q.await (.lowLetter high)) else .error ⟨.missingLowSurrogate, 1⟩
  | .lowLetter high =>
    if c = 'u' then .ok (q.await (.group (some high) 0 (some 0)))
    else .error ⟨.missingLowSurrogate, 1⟩

end Quoted

end LatencyLog.Json
