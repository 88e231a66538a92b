import LatencyLog.Command

/-! # The program

Reads the file that the one argument names and prints the average of its latency samples.
-/

namespace LatencyLog.Main

set_option autoImplicit false

/-- A system error as a failure to read. -/
def ofSystemError (error : IO.Error) : ReadFailure :=
  let numbered (kind : FailureKind) (number : UInt32) (details : String) : ReadFailure :=
    ⟨kind, details ++ " (os error " ++ toString number ++ ")"⟩
  match error with
  | .interrupted _ number details => numbered .interrupted number details
  | .noFileOrDirectory _ number details => numbered .notFound number details
  | .alreadyExists _ number details => numbered (.other "AlreadyExists") number details
  | .otherError number details => numbered (.other "Other") number details
  | .resourceBusy number details => numbered (.other "ResourceBusy") number details
  | .resourceVanished number details => numbered (.other "BrokenPipe") number details
  | .unsupportedOperation number details => numbered (.other "Unsupported") number details
  | .hardwareFault number details => numbered (.other "Other") number details
  | .unsatisfiedConstraints number details => numbered (.other "Other") number details
  | .illegalOperation number details => numbered (.other "Other") number details
  | .protocolError number details => numbered (.other "Other") number details
  | .timeExpired number details => numbered (.other "TimedOut") number details
  | .invalidArgument _ number details => numbered .invalidInput number details
  | .permissionDenied _ number details => numbered (.other "PermissionDenied") number details
  | .resourceExhausted _ number details => numbered (.other "Other") number details
  | .inappropriateType _ number details => numbered .notADirectory number details
  | .noSuchThing _ number details => numbered .notFound number details
  | .unexpectedEof => ⟨.other "UnexpectedEof", "unexpected end of file"⟩
  | .userError details => ⟨.other "Other", details⟩

/-- What reading a file to its end gives, after the deliveries `done`, the last of them first. -/
partial def deliveries (handle : IO.FS.Handle) (done : Source) : IO Source := do
  match ← (handle.read 8192).toBaseIO with
  | .ok bytes =>
    if bytes.isEmpty then return done.reverse
    else deliveries handle (.buffer bytes.toList :: done)
  | .error error =>
    let failure := ofSystemError error
    if failure.isInterruption then deliveries handle done
    else return (.failure failure :: done).reverse

/-- The source of the file at a path. -/
def openFile (path : String) : IO (Except ReadFailure Source) := do
  match ← (IO.FS.Handle.mk path .read).toBaseIO with
  | .ok handle => return .ok (← deliveries handle [])
  | .error error => return .error (ofSystemError error)

/-- What opening the paths among the arguments gives. -/
def openArgument : List String → IO (Except ReadFailure Source)
  | [path] => openFile path
  | _ => return .ok []

end LatencyLog.Main

open LatencyLog in
/-- Prints the average of the latency samples in the file that the one argument names. -/
def main (arguments : List String) : IO UInt32 := do
  let program := toString (← IO.appPath)
  let opened ← Main.openArgument arguments
  let result := Command.run program arguments fun _ => opened
  IO.print result.standardOutput
  IO.eprint result.standardError
  return result.status.toUInt32
