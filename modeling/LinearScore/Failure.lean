import LinearScore.Diagnostic.Basic
import LinearScore.Text.Quoted
import LinearScore.Text.Utf8

/-!
# Failures

Defects of music never stop a call.  What does stop it is an input that cannot be read at all, a
header of a token file that contradicts the format, and durations that cannot change their form.

## Main definitions

* `HeaderFault`, `ArchiveFault`, `AccessFault`: causes with their texts
* `Failure`, `Failure.message`
-/

namespace LinearScore

/-- What is wrong with a line of the header of a token file. -/
inductive HeaderFault where
  | noField (line : String)
  | version (value : String)
  | flavor (value : String)
  deriving DecidableEq

/-- The text of a fault. -/
def HeaderFault.message : HeaderFault → String
  | noField line => "expected 'field: value', got '" ++ line ++ "'"
  | version value => "unsupported version '" ++ value ++ "'"
  | flavor value => "unknown flavor '" ++ value ++ "'"

/-- Why an archive gives no document. -/
inductive ArchiveFault where
  /-- The bytes are no archive. -/
  | malformed
  /-- The container names no root file. -/
  | noRootFile
  /-- No entry looks like a document. -/
  | noDocument (names : List String)
  /-- The archive has no readable entry with the name of the root file. -/
  | missing (name : String)
  deriving DecidableEq

/-- The text of a fault. -/
def ArchiveFault.message : ArchiveFault → String
  | malformed => "invalid Zip archive: Could not find EOCD"
  | noRootFile => "no rootfile found in container.xml"
  | noDocument names =>
    "no MusicXML file found in archive. Files: " ++ Text.quotedList names
  | missing name =>
    "root file '" ++ name ++ "' not found: specified file not found in archive"

/-- Why bytes cannot be had. -/
inductive AccessFault where
  /-- The system refuses, with its words and its number for the reason. -/
  | system (reason : String) (number : Nat)
  /-- Something else stands in the way. -/
  | other (reason : String)
  | notText
  | checksum
  | corrupt
  deriving DecidableEq

/-- There is no file with the name. -/
def AccessFault.noSuchFile : AccessFault := system "No such file or directory" 2

/-- The text of a fault. -/
def AccessFault.message : AccessFault → String
  | system reason number => reason ++ " (os error " ++ toString number ++ ")"
  | other reason => reason
  | notText => "stream did not contain valid UTF-8"
  | checksum => "Invalid checksum"
  | corrupt => "corrupt deflate stream"

/-- Why a call stops. -/
inductive Failure where
  | malformedMarkup
  | unsupportedRoot (tag : String)
  | archive (fault : ArchiveFault)
  | access (fault : AccessFault)
  | encoding (fault : Text.Utf8Fault)
  | header (line : Nat) (fault : HeaderFault)
  | duration (fault : DurationFault)
  | strict (first : Diagnostic)
  deriving DecidableEq

/-- The text of a failure. -/
def Failure.message : Failure → String
  | malformedMarkup => "XML parse error: malformed document"
  | unsupportedRoot tag =>
    "Unsupported root element: '" ++ tag ++ "'. Only 'score-partwise' is supported."
  | archive fault => "Failed to read MXL archive: " ++ fault.message
  | access fault => "I/O error: " ++ fault.message
  | encoding fault => "Invalid UTF-8 in MusicXML file: " ++ fault.message
  | header line fault => "LMX header error at line " ++ toString line ++ ": " ++ fault.message
  | duration fault => fault.message
  | strict first => first.line

/-- In strict mode the first diagnostic is a failure. -/
def requireNone : List Diagnostic → Except Failure Unit
  | [] => .ok ()
  | first :: _ => .error (.strict first)

end LinearScore
