/-! # Faults of JSON texts

* `Json.Cause`: what is wrong with a text.
* `Json.Place`: a position in a text, by line and column.
* `Json.Fault`: a cause at a place, and its message.
* `Json.Halt`: a cause found while a character is read, and how many bytes of that character lie
  before the place of the fault.
-/

namespace LatencyLog.Json

set_option autoImplicit false

/-! ## Causes -/

inductive Cause where
  | endInValue
  | endInList
  | endInObject
  | endInText
  | expectedValue
  | expectedWord
  | expectedColon
  | expectedCommaInList
  | expectedCommaInObject
  | trailingComma
  | trailingCharacters
  | keyNotText
  | controlCharacter
  | invalidEscape
  | loneSurrogate
  | missingLowSurrogate
  | invalidNumber
  | numberOutOfRange
  | tooDeep
  deriving DecidableEq

def Cause.message : Cause → String
  | endInValue => "EOF while parsing a value"
  | endInList => "EOF while parsing a list"
  | endInObject => "EOF while parsing an object"
  | endInText => "EOF while parsing a string"
  | expectedValue => "expected value"
  | expectedWord => "expected ident"
  | expectedColon => "expected `:`"
  | expectedCommaInList => "expected `,` or `]`"
  | expectedCommaInObject => "expected `,` or `\x7d`"
  | trailingComma => "trailing comma"
  | trailingCharacters => "trailing characters"
  | keyNotText => "key must be a string"
  | controlCharacter => "control character (\\u0000-\\u001F) found while parsing a string"
  | invalidEscape => "invalid escape"
  | loneSurrogate => "lone leading surrogate in hex escape"
  | missingLowSurrogate => "unexpected end of hex escape"
  | invalidNumber => "invalid number"
  | numberOutOfRange => "number out of range"
  | tooDeep => "recursion limit exceeded"

/-! ## Places -/

/-- A position: the line, from 1, and the count of bytes before it on that line. -/
structure Place where
  line : Nat
  column : Nat
  deriving DecidableEq

namespace Place

def start : Place := ⟨1, 0⟩

/-- The position after `bytes` bytes of a character. A newline is one byte and begins a line. -/
def within (p : Place) (c : Char) (bytes : Nat) : Place :=
  if c = '\n' ∧ 0 < bytes then ⟨p.line + 1, 0⟩ else ⟨p.line, p.column + bytes⟩

def past (p : Place) (c : Char) : Place := p.within c c.utf8Size

end Place

/-! ## Faults -/

structure Fault where
  cause : Cause
  place : Place
  deriving DecidableEq

def Fault.message (f : Fault) : String :=
  f.cause.message ++ " at line " ++ toString f.place.line ++ " column " ++ toString f.place.column

/-- A cause found while a character is read, and the count of its bytes before the fault. -/
structure Halt where
  cause : Cause
  bytes : Nat
  deriving DecidableEq

/-- The fault of a halt at the character that stands at a place. -/
def Halt.fault (h : Halt) (p : Place) (c : Char) : Fault := ⟨h.cause, p.within c h.bytes⟩

end LatencyLog.Json
