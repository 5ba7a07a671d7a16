import LinearScore.Archive.Container
import LinearScore.MusicXml.Reading

/-!
# Scores in bytes

## Main definitions

* `Readers`, `programReaders`: what reads documents and archives
* `readArchive`: the score of an archive
* `readBytes`: the score of a file, plain or in an archive

The extension of a file decides how it is read.  Without one that is known, a file is a plain
document if it is UTF-8 and starts with a tag, white space apart, and an archive otherwise.
-/

namespace LinearScore

/-- What reads documents and archives. -/
structure Readers where
  /-- The root element of a document. -/
  document : Markup.Reader
  /-- The text of the document in an archive. -/
  archive : List UInt8 → Except Failure String

/-- The readers of the program. -/
def programReaders : Readers := ⟨Markup.readTree, Archive.documentText⟩

variable (readers : Readers)

/-- The score of the document in an archive. -/
def readArchive (bytes : List UInt8) : Except Failure (Reported Score) := do
  let text ← readers.archive bytes
  readScore readers.document text

/-- The score of a plain document. -/
def readPlain (bytes : List UInt8) : Except Failure (Reported Score) :=
  match Text.decodeUtf8 bytes with
  | .ok cs => readScore readers.document (String.ofList cs)
  | .error fault => .error (.encoding fault)

/-- The bytes look like a plain document. -/
def looksPlain (bytes : List UInt8) : Bool :=
  match Text.decodeUtf8 bytes with
  | .ok cs => (Text.trimLeft cs).head? = some '<'
  | .error _ => false

/-- The score of a file with a given extension, if it has one. -/
def readBytes (bytes : List UInt8) (extension : Option String) :
    Except Failure (Reported Score) :=
  match extension with
  | some "mxl" => readArchive readers bytes
  | some "musicxml" | some "xml" => readPlain readers bytes
  | _ => if looksPlain bytes then readPlain readers bytes else readArchive readers bytes

end LinearScore
