import LinearScore.Failure
import LinearScore.Terminal.Reading
import LinearScore.Text.Blank

/-!
# Token files

A token file holds one sequence of tokens for each system.  In its full form a header of lines
`field: value` comes first and a line `---` opens each system; in its short form, without any such
line, each line that is not blank is a system.  A `#` starts a comment that ends with its line.

## Main definitions

* `TokenFile`, `Flavor`
* `TokenFile.ofSystems`: a file with the flavor that its tokens need
* `TokenFile.parse`, `TokenFile.text`: reading and writing
-/

namespace LinearScore

/-- The part of the vocabulary that a file uses. -/
inductive Flavor where
  | core | extended
  deriving DecidableEq

/-- The name of a flavor. -/
def Flavor.name : Flavor → String
  | core => "core"
  | extended => "extended"

/-- The flavor with a given name. -/
def Flavor.ofName? (name : String) : Option Flavor := [core, extended].find? (·.name = name)

/-- A flavor and the tokens of each system. -/
structure TokenFile where
  flavor : Flavor := .core
  systems : List (List String) := []
  deriving DecidableEq

namespace TokenFile

/-- The version of the format. -/
def version : String := "1.0"

/-- The line that opens a system. -/
def separator : String := "---"

/-- The text is a token of the extended flavor. -/
def isExtendedText (text : String) : Bool :=
  (Terminal.ofText? text).elim false Terminal.isExtended

/-- A file of token sequences, in the extended flavor if some token needs it. -/
def ofSystems (systems : List (List String)) : TokenFile :=
  { flavor := if systems.flatten.any isExtendedText then .extended else .core
    systems }

/-- A line without its comment. -/
def dropComment (line : String) : String := String.ofList (line.toList.takeWhile (· ≠ '#'))

/-- The line opens a system. -/
def isSeparator (line : String) : Bool := Text.trim line = separator

/-- The two sides of the first colon. -/
def splitField (line : String) : Option (String × String) :=
  let (field, rest) := line.toList.span (· ≠ ':')
  match rest with
  | [] => none
  | _ :: value => some (String.ofList field, String.ofList value)

/-- The flavor after one line of the header.  Blank lines and unknown fields change nothing. -/
def readHeaderLine (flavor : Flavor) (line : String) : Except HeaderFault Flavor :=
  let line := Text.trim line
  if line = "" then .ok flavor
  else
    match splitField line with
    | none => .error (.noField line)
    | some (field, value) =>
      let value := Text.trim value
      match Text.trim field with
      | "version" => if value = version then .ok flavor else .error (.version value)
      | "flavor" =>
        match Flavor.ofName? value with
        | some flavor => .ok flavor
        | none => .error (.flavor value)
      | _ => .ok flavor

/-- The flavor after the lines of the header, numbered from `number` on. -/
def readHeader (number : Nat) (flavor : Flavor) : List String → Except Failure Flavor
  | [] => .ok flavor
  | line :: lines =>
    match readHeaderLine flavor line with
    | .ok flavor => readHeader (number + 1) flavor lines
    | .error fault => .error (.header number fault)

/-- The systems of the lines behind a separator: the tokens of the lines up to each further
separator. -/
def readSystems (lines : List String) : List (List String) :=
  (lines.splitOnP isSeparator).map fun system => system.flatMap Text.words

/-- The file that a text denotes. -/
def parse (text : String) : Except Failure TokenFile := do
  let lines := (Text.lines text).map dropComment
  let (header, rest) := lines.span fun line => !isSeparator line
  match rest with
  | [] =>
    return { systems := (lines.filter fun line => Text.trim line ≠ "").map Text.words }
  | _ :: lines =>
    let flavor ← readHeader 1 .core header
    return { flavor, systems := readSystems lines }

/-- The two lines of a system. -/
def systemText (tokens : List String) : String :=
  separator ++ "\n" ++ String.intercalate " " tokens ++ "\n"

/-- The text of a file, in the full form. -/
def text (file : TokenFile) : String :=
  "version: " ++ version ++ "\n" ++ "flavor: " ++ file.flavor.name ++ "\n" ++
  String.join (file.systems.map systemText)

end TokenFile

end LinearScore
