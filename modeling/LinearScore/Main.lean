import LinearScore.CommandLine

/-!
# The program

Reads the input that the command line names, prints what the command gives, and writes the output.
-/

namespace LinearScore

/-- What went wrong with a file, in the words of the system where it gave a number. -/
def accessFault : IO.Error → AccessFault
  | .noFileOrDirectory .. => .noSuchFile
  | .interrupted _ number reason | .alreadyExists _ number reason
  | .invalidArgument _ number reason | .permissionDenied _ number reason
  | .resourceExhausted _ number reason | .inappropriateType _ number reason
  | .noSuchThing _ number reason
  | .otherError number reason | .resourceBusy number reason | .resourceVanished number reason
  | .unsupportedOperation number reason | .hardwareFault number reason
  | .unsatisfiedConstraints number reason | .illegalOperation number reason
  | .protocolError number reason | .timeExpired number reason => .system reason number.toNat
  | .unexpectedEof => .other "unexpected end of file"
  | .userError reason => .other reason

/-- The bytes of the input of a command. -/
def readSource (c : Command) : IO (Except AccessFault (List UInt8)) := do
  try
    if c.readsTyped then
      let input ← IO.getStdin
      return .ok (← input.readBinToEnd).toList
    else
      return .ok (← IO.FS.readBinFile c.input).toList
  catch e => return .error (accessFault e)

/-- The exit code of a run that stopped. -/
def stopped : Outcome := { code := 101 }

/-- Writes the output of a run, if it has one. -/
def writeTarget (o : Outcome) : IO Outcome := do
  match o.writing with
  | none => return o
  | some w =>
    try
      IO.FS.writeFile w.path w.content
      return o.afterWriting w (.ok ())
    catch e => return o.afterWriting w (.error (accessFault e))

end LinearScore

open LinearScore

/-- Runs the program on its arguments. -/
def main (args : List String) : IO UInt32 := do
  let outcome ← match CommandLine.interpret args with
    | .stop outcome => pure outcome
    | .run c => writeTarget ((c.run (← readSource c)).outcome.getD stopped)
  IO.eprint outcome.err
  IO.print outcome.out
  return outcome.code.toUInt32
