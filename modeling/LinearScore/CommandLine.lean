import LinearScore.Document
import LinearScore.Json.Score
import LinearScore.MusicXml.Writing
import LinearScore.RoundTrip

/-!
# The command line

The program is a function from its arguments and the bytes of one input to what it prints, what it
writes and its exit code, unless it stops at a number that the integers of the machine do not hold.
Only reading that input and writing the output are left to the outside.

## Main definitions

* `CommandLine.interpret`: what the arguments ask for
* `Command.run`: the outcome of a command for the bytes of its input
* `Outcome.afterWriting`: the outcome once the output has been written, or could not be
-/

namespace LinearScore

/-- What a command does. -/
inductive Action where
  | linearize | delinearize | check
  deriving DecidableEq

/-- The action with a given name. -/
def Action.ofName? : String → Option Action
  | "linearize" => some linearize
  | "delinearize" => some delinearize
  | "check" => some check
  | _ => none

/-- A command with its options. -/
structure Command where
  action : Action
  input : String
  output : Option String
  strict : Bool
  quarters : Bool
  json : Bool

/-- A file to be written, and what its content is called. -/
structure Writing where
  path : String
  content : String
  title : String

/-- What a run of the program leaves behind. -/
structure Outcome where
  code : Nat := 0
  out : String := ""
  err : String := ""
  writing : Option Writing := none

namespace Outcome

/-- The outcome with one more line of messages. -/
def message (o : Outcome) (text : String) : Outcome := { o with err := o.err ++ text ++ "\n" }

/-- The outcome of a run that ends with an error. -/
def fail (o : Outcome) (text : String) : Outcome := { o.message text with code := 1 }

/-- The outcome with one more line of output. -/
def print (o : Outcome) (text : String) : Outcome := { o with out := o.out ++ text ++ "\n" }

/-- The outcome with a line for each diagnostic. -/
def list (o : Outcome) (diagnostics : List Diagnostic) : Outcome :=
  diagnostics.foldl (fun o d => o.message d.line) o

/-- The outcome once the output has been written, or could not be. -/
def afterWriting (o : Outcome) (w : Writing) : Except AccessFault Unit → Outcome
  | .ok () => o.message ("Wrote " ++ w.title ++ " to " ++ w.path)
  | .error fault => o.fail ("Error writing to '" ++ w.path ++ "': " ++ fault.message)

end Outcome

/-- How the program is called. -/
def usage : String :=
  "Usage: lmx linearize <input.musicxml|input.mxl> [output.lmx] [--strict]\n" ++
  "       lmx delinearize <input.lmx|-> [output.musicxml] [--keep-fractional] [--strict]\n" ++
  "       lmx check <input.musicxml|input.mxl> [--strict] [--json]"

/-- The arguments read so far. -/
structure Arguments where
  command : String := ""
  paths : List String := []
  strict : Bool := false
  quarters : Bool := false
  json : Bool := false

/-- What the arguments ask for: a command, or an outcome without one. -/
inductive Request where
  | run (command : Command)
  | stop (outcome : Outcome)

namespace CommandLine

/-- Reads the arguments one after the other.  Help and unknown options stop at once. -/
def readArguments (a : Arguments) : List String → Except Outcome Arguments
  | [] => .ok a
  | "--strict" :: rest => readArguments { a with strict := true } rest
  | "--keep-fractional" :: rest => readArguments { a with quarters := true } rest
  | "--json" :: rest => readArguments { a with json := true } rest
  | arg :: rest =>
    if arg = "-h" || arg = "--help" then .error (Outcome.print {} usage)
    else if "--".toList.isPrefixOf arg.toList then
      .error (Outcome.fail {} ("Unknown option '" ++ arg ++ "'\n" ++ usage))
    else if a.command = "" then readArguments { a with command := arg } rest
    else readArguments { a with paths := a.paths ++ [arg] } rest

/-- The request of arguments that have been read. -/
def requestOf (a : Arguments) : Request :=
  match a.command, a.paths with
  | "", _ | _, [] => .stop (Outcome.fail {} usage)
  | command, input :: others =>
    match Action.ofName? command with
    | some action => .run ⟨action, input, others.head?, a.strict, a.quarters, a.json⟩
    | none => .stop (Outcome.fail {} ("Unknown command '" ++ command ++ "'\n" ++ usage))

/-- What the arguments of the program ask for. -/
def interpret (args : List String) : Request :=
  match readArguments {} args with
  | .ok a => requestOf a
  | .error outcome => .stop outcome

end CommandLine

/-- The extension of a path: what follows the last dot of its last component, unless the dot comes
first there. -/
def extensionOf (path : String) : Option String :=
  let reversed := path.toList.reverse.dropWhile (· = '/')
  let name := reversed.takeWhile (· ≠ '/')
  match name.span (· ≠ '.') with
  | (_, []) | (_, ['.']) => none
  | (extension, _ :: _) =>
    if name = ['.', '.'] then none else some (String.ofList extension.reverse)

namespace Command

/-- The input is not a file but what is typed in. -/
def readsTyped (c : Command) : Bool := c.action = .delinearize && c.input = "-"

/-- Goes on unless the command is strict and there are diagnostics, which are listed first. -/
def unlessStrict (c : Command) (o : Outcome) (diagnostics : List Diagnostic)
    (next : Outcome → Outcome) : Outcome :=
  let o := o.list diagnostics
  match c.strict, diagnostics with
  | true, first :: _ => o.fail ("Strict mode: " ++ first.line)
  | _, _ => next o

/-- Puts a text into the output file, or prints it where there is none. -/
def deliver (c : Command) (title content : String) (o : Outcome) : Outcome :=
  match c.output with
  | some path => { o with writing := some ⟨path, content, title⟩ }
  | none => { o with out := o.out ++ content }

/-- The score that the input holds. -/
def readInput (c : Command) (input : Except AccessFault (List UInt8)) :
    Except Failure (Reported Score) :=
  match input with
  | .ok bytes => readBytes programReaders bytes (extensionOf c.input)
  | .error fault => .error (.access fault)

/-- The text that the input holds. -/
def readText (input : Except AccessFault (List UInt8)) : Except AccessFault String := do
  match Text.decodeUtf8 (← input) with
  | .ok cs => return String.ofList cs
  | .error _ => .error .notText

/-- The complaint about an input that cannot be read. -/
def unreadable (c : Command) (fault : AccessFault) : String :=
  if c.readsTyped then "Error reading stdin: " ++ fault.message
  else "Error reading file '" ++ c.input ++ "': " ++ fault.message

/-- Writes a score as a token file. -/
def linearize (c : Command) (score : Reported Score) : Checked Outcome := do
  let file ← score.value.encode.checked
  return c.unlessStrict {} (score.diagnostics ++ file.diagnostics)
    (c.deliver "LMX" file.value.text)

/-- Writes a token file as a score. -/
def delinearize (c : Command) (text : String) : Checked Outcome :=
  match TokenFile.parse text with
  | .error failure =>
    return Outcome.fail {} ("Error in '" ++ c.input ++ "': " ++ failure.message)
  | .ok file => do
    let part ← (file.decode c.quarters).checked
    return c.unlessStrict {} part.diagnostics
      (c.deliver "MusicXML" (Score.ofPart part.value).toMarkup)

/-- The totals of a check. -/
structure Tally where
  systems : Nat := 0
  mismatches : Nat := 0
  diagnostics : List Diagnostic := []
  outcome : Outcome := {}

/-- Counts the check of one system and complains if what comes back differs. -/
def Tally.add (part : String) (t : Tally) (check : SystemCheck) : Tally :=
  let measure := check.firstMeasure.elim "?" toString
  let complaint :=
    "Part '" ++ part ++ "', system " ++ toString (check.system + 1) ++ " (measure " ++ measure ++
      "): decoded content differs"
  { systems := t.systems + 1
    mismatches := if check.agrees then t.mismatches else t.mismatches + 1
    diagnostics := t.diagnostics ++ check.diagnostics
    outcome := if check.agrees then t.outcome else t.outcome.message complaint }

/-- Checks some parts, up to the first one that cannot be checked. -/
def checkParts (t : Tally) : List Part → Checked (Except Outcome Tally)
  | [] => return .ok t
  | p :: ps => do
    match ← Machine.check p with
    | .error failure =>
      return .error (t.outcome.fail ("Part '" ++ p.id ++ "': " ++ failure.message))
    | .ok checks => checkParts (checks.foldl (Tally.add p.id) t) ps

/-- Prints the totals of a check; in strict mode a mismatch is an error. -/
def conclude (c : Command) (t : Tally) (o : Outcome) : Outcome :=
  let o := o.print
    (toString t.systems ++ " systems, " ++ toString t.mismatches ++ " mismatches, " ++
      toString t.diagnostics.length ++ " diagnostics")
  if c.strict && 0 < t.mismatches then
    o.fail ("Strict mode: " ++ toString t.mismatches ++ " systems do not round-trip")
  else o

/-- Checks all parts of a score. -/
def check (c : Command) (score : Reported Score) : Checked Outcome := do
  match ← checkParts { diagnostics := score.diagnostics } score.value.parts with
  | .error outcome => return outcome
  | .ok t =>
    let listing := (Json.ofList Diagnostic.toJson t.diagnostics).pretty
    let o := if c.json then t.outcome.print listing else t.outcome
    return c.unlessStrict o t.diagnostics (c.conclude t)

/-- The outcome of a command for its input. -/
def run (c : Command) (input : Except AccessFault (List UInt8)) : Checked Outcome :=
  match c.action with
  | .delinearize =>
    match readText input with
    | .ok text => c.delinearize text
    | .error fault => return Outcome.fail {} (c.unreadable fault)
  | action =>
    match c.readInput input with
    | .error failure =>
      return Outcome.fail {} ("Error reading '" ++ c.input ++ "': " ++ failure.message)
    | .ok score => if action = .check then c.check score else c.linearize score

end Command

end LinearScore
