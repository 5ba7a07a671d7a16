import LinearScore.Archive.Directory
import LinearScore.Markup.Document

/-!
# The document in an archive

An entry with a fixed name tells which entry is the document.  Where an archive has no such entry,
the document is the first one outside `META-INF` whose name looks like a document.

## Main definitions

* `documentText`: the text of the document in an archive
-/

namespace LinearScore.Archive

/-- The name of the entry that tells which entry is the document. -/
def containerName : String := "META-INF/container.xml"

/-- The entry with a given name, with its data as stored, if it can be read at all. -/
def findEntry (entries : List Entry) (bytes : List UInt8) (name : String) :
    Option (Entry × List UInt8) := do
  let entry ← entries.find? (·.name = name)
  let stored ← entry.stored bytes
  return (entry, stored)

/-- The path that a container states first. -/
def rootPath (container : String) : Except Failure String :=
  match Markup.readTree false container with
  | none => .error .malformedMarkup
  | some t =>
    let paths := (t.node.elements.filter (·.name = "rootfile")).filterMap
      (·.attribute? "full-path")
    match paths with
    | path :: _ => .ok path
    | [] => .error (.archive .noRootFile)

/-- The name looks like that of a document. -/
def looksLikeDocument (name : String) : Bool :=
  !"META-INF/".toList.isPrefixOf name.toList &&
    (".xml".toList.isSuffixOf name.toList || ".musicxml".toList.isSuffixOf name.toList)

/-- The name of the entry that is the document. -/
def documentName (entries : List Entry) (bytes : List UInt8) : Except Failure String := do
  match findEntry entries bytes containerName with
  | some (entry, stored) => rootPath (← entry.readText stored)
  | none =>
    let names := entries.map (·.name)
    match names.find? looksLikeDocument with
    | some name => return name
    | none => .error (.archive (.noDocument names))

/-- The text of the document in an archive. -/
def documentText (bytes : List UInt8) : Except Failure String := do
  match readDirectory bytes with
  | none => .error (.archive .malformed)
  | some entries =>
    let name ← documentName entries bytes
    match findEntry entries bytes name with
    | some (entry, stored) => entry.readText stored
    | none => .error (.archive (.missing name))

end LinearScore.Archive
