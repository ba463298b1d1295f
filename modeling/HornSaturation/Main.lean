import HornSaturation.CommandLine.Response

/-! # The command line program -/

namespace HornSaturation.CommandLine

/-- The number that the system gives to an error, if it is one of reading files. It arrives with
either sign. -/
def errorNumber? : IO.Error → Option Nat
  | .noFileOrDirectory _ n _ | .inappropriateType _ n _ | .permissionDenied _ n _
  | .invalidArgument _ n _ | .resourceExhausted _ n _ => some n.toInt32.toInt.natAbs
  | _ => none

/-- The text of a file, or the reason why it cannot be read. -/
def readText (file : String) : IO (Except FileFault String) := do
  try
    let bytes ← IO.FS.readBinFile file
    return match String.fromUTF8? bytes with
      | some text => .ok text
      | none => .error .notText
  catch e =>
    return .error (((errorNumber? e).bind FileFault.ofNumber?).getD (.other (toString e)))

/-- The response to the arguments of the program. -/
def response (arguments : List String) : IO Response := do
  match Request.ofArguments arguments with
  | .solve file options => return options.respond file (← readText file)
  | .version => return versionResponse
  | .help => return helpResponse
  | .usageError => return usageResponse

end HornSaturation.CommandLine

/-- Answers the command line. -/
def main (arguments : List String) : IO UInt32 := do
  let r ← HornSaturation.CommandLine.response arguments
  IO.print r.stdout
  IO.eprint r.stderr
  return r.exit.toUInt32
