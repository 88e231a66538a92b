import LatencyLog.Folder
import LatencyLog.Summary

/-! # The command

`Command.run` says what the program prints for its arguments. It takes one argument, the path of a
file, and prints the average of the samples in that file.
-/

namespace LatencyLog.Command

set_option autoImplicit false

/-- What a run of the program leaves behind. -/
structure Result where
  status : Nat
  standardOutput : String
  standardError : String
  deriving DecidableEq

/-- The result of a call with the wrong count of arguments. -/
def usage (program : String) : Result := ⟨1, "Usage: " ++ program ++ " filename\n", ""⟩

/-- The result of a pass over the input. -/
def ofPass (pass : Pass) : Result :=
  match pass.result with
  | .ok summary => ⟨0, summary.average.text ++ "\n", ""⟩
  | .error error => ⟨1, "", "❌ " ++ error.message ++ "\n"⟩

/-- What the program prints, `openAt` being how it opens a path. -/
def run (program : String) (arguments : List String)
    (openAt : String → Except ReadFailure Source) : Result :=
  match arguments with
  | [path] => ofPass (Pass.ofOpened path (openAt path))
  | _ => usage program

end LatencyLog.Command
