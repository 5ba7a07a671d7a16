import LinearScore.Failure
import LinearScore.Layout.Systems
import LinearScore.Markup.Tree
import LinearScore.MusicXml.Note

/-!
# Reading scores

Of a document only what tokens can express is kept.  Elements that are known to have no counterpart
are passed over silently; elements that are not known are passed over and reported.  How a text
becomes a tree of elements is left to a reader of documents.

## Main definitions

* `readScore`: the score of a document
* `readFragment`: the part of a document that consists of one part
-/

namespace LinearScore

open Markup (Tree)

/-- The key signature of a `key` element. -/
def readKey (t : Tree) : KeySignature := ⟨(t.childValue? Text.readSigned "fifths").getD 0⟩

/-- The time signature of a `time` element, if it consists of two numbers. -/
def readTime (t : Tree) : Option TimeSignature := do
  let beats ← t.childValue? Text.readCount "beats"
  let beatType ← t.childValue? Text.readCount "beat-type"
  return ⟨beats, beatType⟩

/-- One child of a `clef` element. -/
def readClefChild (c : Clef) (child : Tree) : Clef :=
  match child.name with
  | "sign" => { c with sign := child.trimmed?.getD "G" }
  | "line" => { c with line := (child.value? Text.readSigned).getD 2 }
  | _ => c

/-- The clef of a `clef` element; what it leaves out is that of a treble clef. -/
def readClef (t : Tree) : Clef :=
  t.children.foldl readClefChild ⟨(t.attribute? "number").bind Text.readByte, "G", 2⟩

/-- The children of `attributes` that are passed over. -/
def passedAttributes : List String :=
  ["footnote", "level", "part-symbol", "instruments", "staff-details", "directive",
   "measure-style", "transpose", "for-part"]

/-- The children of `measure` that are passed over. -/
def passedElements : List String :=
  ["direction", "harmony", "figured-bass", "sound", "listening", "grouping", "link", "bookmark",
   "barline"]

/-- One child of an `attributes` element. -/
def readAttributesChild (measure : Int) (a : Attributes) (child : Tree) : Reported Attributes :=
  match child.name with
  | "divisions" => pure { a with divisions := child.value? Text.readLong }
  | "key" => pure { a with key := some (readKey child) }
  | "time" =>
    takeOr measure .unsupportedTime a (fun time => { a with time := some time }) (readTime child)
  | "staves" => pure { a with staves := child.value? Text.readByte }
  | "clef" => pure { a with clefs := a.clefs ++ [readClef child] }
  | name => do
    if !passedAttributes.contains name then reportMeasure measure (.unexpectedAttribute name)
    return a

/-- The attributes of an `attributes` element, with the clefs in ascending order of staves. -/
def readAttributes (measure : Int) (t : Tree) : Reported Attributes := do
  let a ← t.children.foldlM (readAttributesChild measure) {}
  return { a with clefs := Attributes.sortClefs a.clefs }

/-- The duration of a `backup` or `forward` element; a missing one is reported and counts as
zero. -/
def readSkip (measure : Int) (fault : MeasureFault) (t : Tree) : Reported Rat :=
  takeOr measure fault 0 id (t.childValue? Text.readRatio "duration")

/-- One child of a `measure` element. -/
def readMeasureChild (m : Measure) (child : Tree) : Reported Measure :=
  let add (e : Element) : Measure := { m with elements := m.elements ++ [e] }
  match child.name with
  | "attributes" => do
    let a ← readAttributes m.number child
    return add (.attributes a)
  | "note" => do
    let n ← readNote m.number child
    return add (.note n)
  | "backup" => do
    let d ← readSkip m.number .backupWithoutDuration child
    return add (.backup d)
  | "forward" => do
    let d ← readSkip m.number .forwardWithoutDuration child
    return add (.forward d)
  | "print" =>
    pure { m with
      newSystem := m.newSystem || child.attributeIs "new-system" "yes"
      newPage := m.newPage || child.attributeIs "new-page" "yes" }
  | name => do
    if !passedElements.contains name then reportMeasure m.number (.unexpectedElement name)
    return m

/-- The measure of a `measure` element. -/
def readMeasure (t : Tree) : Reported Measure :=
  let number := ((t.attribute? "number").bind Text.readSigned).getD 0
  t.children.foldlM readMeasureChild { number, implicit := t.attributeIs "implicit" "yes" }

/-- The measures of the children of a `part` element. -/
def readMeasures : List Tree → Reported (List Measure)
  | [] => pure []
  | child :: children =>
    if child.name = "measure" then do
      let m ← readMeasure child
      let ms ← readMeasures children
      return m :: ms
    else do
      reportDefect (.markup (.unexpectedElement child.name))
      readMeasures children

/-- The part that a `score-part` element announces. -/
def readListedPart (t : Tree) : Part :=
  let name := (t.children.filter (·.name = "part-name")).getLast?.elim "" (·.trimmed)
  { id := (t.attribute? "id").getD "", name }

/-- The parts with measures added to the first part that has the given identifier. -/
def addMeasures (id : String) (measures : List Measure) : List Part → List Part
  | [] => []
  | p :: ps =>
    if p.id = id then { p with measures := p.measures ++ measures } :: ps
    else p :: addMeasures id measures ps

/-- Reads the measures of a `part` element into the part of a score that has its identifier.  A
part that the score does not list is reported and put behind the others. -/
def readPart (s : Score) (t : Tree) : Reported Score := do
  let id := (t.attribute? "id").getD ""
  let listed := s.parts.any (·.id = id)
  if !listed then reportDefect (.markup (.notListed id))
  let parts := if listed then s.parts else s.parts ++ [{ id := id }]
  let measures ← readMeasures t.children
  return { s with parts := addMeasures id measures parts }

/-- The last value that the children of an element give. -/
def lastOf {α : Type} (old : Option α) (read : Tree → Option (Option α)) (t : Tree) : Option α :=
  (t.children.filterMap read).getLastD old

/-- The title that a child of a `work` element states. -/
def readTitle (t : Tree) : Option (Option String) :=
  if t.name = "work-title" then some t.trimmed? else none

/-- The composer that a child of an `identification` element states. -/
def readComposer (t : Tree) : Option (Option String) :=
  if t.name = "creator" && t.attributeIs "type" "composer" then some t.trimmed? else none

/-- One child of the root of a document. -/
def readScoreChild (s : Score) (child : Tree) : Reported Score :=
  match child.name with
  | "work" => pure { s with title := lastOf s.title readTitle child }
  | "identification" => pure { s with composer := lastOf s.composer readComposer child }
  | "part-list" =>
    let listed := (child.children.filter (·.name = "score-part")).map readListedPart
    pure { s with parts := s.parts ++ listed }
  | "part" => readPart s child
  | _ => pure s

/-- The score of the root element of a document. -/
def scoreOfTree (t : Tree) : Except Failure (Reported Score) :=
  if t.name = "score-partwise" then
    .ok (t.children.foldlM readScoreChild { version := t.attribute? "version" })
  else .error (.unsupportedRoot t.name)

/-- The part of a root element that is a part. -/
def partOfTree (t : Tree) : Except Failure (Reported Part) :=
  if t.name = "part" then
    .ok do
      let measures ← readMeasures t.children
      return { id := (t.attribute? "id").getD "", measures }
  else .error (.unsupportedRoot t.name)

/-- The root element of a document. -/
def readRoot (reader : Markup.Reader) (text : String) : Except Failure Tree :=
  match reader true text with
  | some t => .ok t
  | none => .error .malformedMarkup

/-- The score of a document. -/
def readScore (reader : Markup.Reader) (text : String) : Except Failure (Reported Score) :=
  readRoot reader text >>= scoreOfTree

/-- The part of a document that consists of one part. -/
def readFragment (reader : Markup.Reader) (text : String) : Except Failure (Reported Part) :=
  readRoot reader text >>= partOfTree

end LinearScore
