import LatencyLog.Binary64.Basic

/-! # JSON values

* `Json.Number`: an integer from `-2 ^ 63` up to `2 ^ 64 - 1`, or a binary64 number.
* `Json.Value`: a value, with the members of an object in the order of the text.
* `Json.lastMember?`: the value of a name, the last one where the name is repeated.
-/

namespace LatencyLog.Json

set_option autoImplicit false

/-- The value of a number literal. -/
inductive Number where
  | integer (value : Int)
  | real (value : Binary64)
  deriving DecidableEq

inductive Value where
  | null
  | bool (value : Bool)
  | number (value : Number)
  | text (value : String)
  | list (items : List Value)
  | object (members : List (String × Value))

/-- The value of the last member of a name. -/
def lastMember? (name : String) (members : List (String × Value)) : Option Value :=
  (members.reverse.find? fun m => m.1 == name).map Prod.snd

end LatencyLog.Json
