import LatencyLog.Json.Literal
import LatencyLog.Json.Quoted

/-! # Reading JSON texts

A text is read one character at a time by a machine with a stack.

* `Json.Frame`: a list or an object that waits for the value now being read.
* `Json.Pause`: where a value has just ended.
* `Json.Phase`: what is being read.
* `Json.State`: the frames, the innermost first, and the phase.
* `Json.State.step`: one more character.
* `Json.State.atEnd`: the value of a text that ends.
* `Json.read`: the value of a text, or the first fault in it.
-/

namespace LatencyLog.Json

set_option autoImplicit false

/-! ## States -/

/-- A list or an object that waits for the value now being read. Items and members are held with
the last of them first. -/
inductive Frame where
  | list (items : List Value)
  | member (members : List (String × Value)) (key : String)

/-- Where a value has just ended. -/
inductive Pause where
  /-- After the value of the whole text. -/
  | finished (value : Value)
  /-- After an item of a list. -/
  | item (items : List Value)
  /-- After a member of an object. -/
  | member (members : List (String × Value))

inductive Phase where
  | value
  | firstItem
  | nextItem (items : List Value)
  | firstKey
  | nextKey (members : List (String × Value))
  | key (members : List (String × Value)) (quoted : Quoted)
  | colon (members : List (String × Value)) (key : String)
  /-- Within one of the words for a value, of which `next` and then `rest` are to come. -/
  | word (value : Value) (next : Char) (rest : List Char)
  | text (quoted : Quoted)
  | number (literal : Literal)
  | pause (place : Pause)

/-- The frames, the innermost first, and the phase within the innermost. -/
structure State where
  frames : List Frame
  phase : Phase

namespace State

def start : State := ⟨[], .value⟩

def complete (frames : List Frame) (v : Value) : List Frame × Pause :=
  match frames with
  | [] => ([], .finished v)
  | .list items :: outer => (outer, .item (v :: items))
  | .member members key :: outer => (outer, .member ((key, v) :: members))

def paused (s : List Frame × Pause) : State := ⟨s.1, .pause s.2⟩

/-! ## Characters -/

def isSpace (c : Char) : Bool := c == ' ' || c == '\n' || c == '\t' || c == '\r'

/-- How many lists and objects may be open at once. -/
def maxDepth : Nat := 127

def beginValue (frames : List Frame) (c : Char) : Except Halt State :=
  if c = 'n' then .ok ⟨frames, .word .null 'u' ['l', 'l']⟩
  else if c = 't' then .ok ⟨frames, .word (.bool true) 'r' ['u', 'e']⟩
  else if c = 'f' then .ok ⟨frames, .word (.bool false) 'a' ['l', 's', 'e']⟩
  else if c = '"' then .ok ⟨frames, .text Quoted.start⟩
  else if c = '-' then .ok ⟨frames, .number Literal.minus⟩
  else if c = '[' then
    if maxDepth ≤ frames.length then .error ⟨.tooDeep, 1⟩ else .ok ⟨frames, .firstItem⟩
  else if c = '\x7b' then
    if maxDepth ≤ frames.length then .error ⟨.tooDeep, 1⟩ else .ok ⟨frames, .firstKey⟩
  else
    match Text.digit? c with
    | some d => .ok ⟨frames, .number (Literal.firstDigit false d)⟩
    | none => .error ⟨.expectedValue, 1⟩

def beginKey (frames : List Frame) (members : List (String × Value)) (c : Char) :
    Except Halt State :=
  if c = '"' then .ok ⟨frames, .key members Quoted.start⟩ else .error ⟨.keyNotText, 1⟩

/-- The state after a character that follows a value. -/
def stepPause (frames : List Frame) (place : Pause) (c : Char) : Except Halt State :=
  if isSpace c then .ok ⟨frames, .pause place⟩
  else
    match place with
    | .finished _ => .error ⟨.trailingCharacters, 1⟩
    | .item items =>
      if c = ']' then .ok (paused (complete frames (.list items.reverse)))
      else if c = ',' then .ok ⟨frames, .nextItem items⟩
      else .error ⟨.expectedCommaInList, 1⟩
    | .member members =>
      if c = '\x7d' then .ok (paused (complete frames (.object members.reverse)))
      else if c = ',' then .ok ⟨frames, .nextKey members⟩
      else .error ⟨.expectedCommaInObject, 1⟩

/-- The state after one more character of a number, or after the character that follows it. -/
def stepNumber (frames : List Frame) (l : Literal) (c : Char) : Except Halt State :=
  match l.step c with
  | .error h => .error h
  | .ok (some l) => .ok ⟨frames, .number l⟩
  | .ok none =>
    match l.number with
    | .error cause => .error ⟨cause, 0⟩
    | .ok n =>
      let ended := complete frames (.number n)
      stepPause ended.1 ended.2 c

def stepWord (frames : List Frame) (v : Value) (next : Char) (rest : List Char) (c : Char) :
    Except Halt State :=
  if c ≠ next then .error ⟨.expectedWord, 1⟩
  else
    match rest with
    | [] => .ok (paused (complete frames v))
    | next :: rest => .ok ⟨frames, .word v next rest⟩

def step (s : State) (c : Char) : Except Halt State :=
  match s.phase with
  | .value => if isSpace c then .ok s else beginValue s.frames c
  | .firstItem =>
    if isSpace c then .ok s
    else if c = ']' then .ok (paused (complete s.frames (.list [])))
    else beginValue (.list [] :: s.frames) c
  | .nextItem items =>
    if isSpace c then .ok s
    else if c = ']' then .error ⟨.trailingComma, 1⟩
    else beginValue (.list items :: s.frames) c
  | .firstKey =>
    if isSpace c then .ok s
    else if c = '\x7d' then .ok (paused (complete s.frames (.object [])))
    else beginKey s.frames [] c
  | .nextKey members =>
    if isSpace c then .ok s
    else if c = '\x7d' then .error ⟨.trailingComma, 1⟩
    else beginKey s.frames members c
  | .key members quoted =>
    match quoted.step c with
    | .error h => .error h
    | .ok (.pending q) => .ok ⟨s.frames, .key members q⟩
    | .ok (.closed key) => .ok ⟨s.frames, .colon members key⟩
  | .colon members key =>
    if isSpace c then .ok s
    else if c = ':' then .ok ⟨.member members key :: s.frames, .value⟩
    else .error ⟨.expectedColon, 1⟩
  | .word v next rest => stepWord s.frames v next rest c
  | .text quoted =>
    match quoted.step c with
    | .error h => .error h
    | .ok (.pending q) => .ok ⟨s.frames, .text q⟩
    | .ok (.closed text) => .ok (paused (complete s.frames (.text text)))
  | .number l => stepNumber s.frames l c
  | .pause place => stepPause s.frames place c

/-! ## The end of a text -/

/-- The value of a text that ends where a value has ended. -/
def pauseAtEnd : Pause → Except Cause Value
  | .finished v => .ok v
  | .item _ => .error .endInList
  | .member _ => .error .endInObject

def atEnd (s : State) : Except Cause Value :=
  match s.phase with
  | .value => .error .endInValue
  | .firstItem => .error .endInList
  | .nextItem _ => .error .endInValue
  | .firstKey => .error .endInObject
  | .nextKey _ => .error .endInValue
  | .key _ _ => .error .endInText
  | .colon _ _ => .error .endInObject
  | .word _ _ _ => .error .endInValue
  | .text _ => .error .endInText
  | .number l =>
    match l.number with
    | .error cause => .error cause
    | .ok n => pauseAtEnd (complete s.frames (.number n)).2
  | .pause place => pauseAtEnd place

end State

/-! ## Texts -/

/-- The value of the text that a state ends with `rest`, where `rest` begins at a place. -/
def readFrom (place : Place) (s : State) (rest : List Char) : Except Fault Value :=
  match rest with
  | [] =>
    match s.atEnd with
    | .ok v => .ok v
    | .error cause => .error ⟨cause, place⟩
  | c :: rest =>
    match s.step c with
    | .ok s => readFrom (place.past c) s rest
    | .error h => .error (h.fault place c)

def read (text : List Char) : Except Fault Value := readFrom Place.start State.start text

end LatencyLog.Json
