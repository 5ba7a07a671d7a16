import LinearScore.Diagnostic.Reported
import LinearScore.Markup.Tree
import LinearScore.Text.Blank
import LinearScore.Text.Ratio
import LinearScore.Text.Whole

/-!
# Reading notes

The children of a `note` element are taken one after the other; a later one replaces what an
earlier one of the same kind stated.  What cannot be read is reported and left out.

## Main definitions

* `Markup.Tree.number?` and its like: values of elements and attributes
* `NoteDraft`, `readNote`
-/

namespace LinearScore

namespace Markup.Tree

/-- The text of an element without blanks at its ends, if it starts with text. -/
def trimmed? (t : Tree) : Option String := t.text?.map Text.trim

/-- The text of an element without blanks at its ends. -/
def trimmed (t : Tree) : String := t.trimmed?.getD ""

/-- The value of an element that `read` accepts. -/
def value? {α : Type} (read : String → Option α) (t : Tree) : Option α := t.trimmed?.bind read

/-- The value of the first child with a name. -/
def childValue? {α : Type} (read : String → Option α) (t : Tree) (name : String) : Option α :=
  (t.child? name).bind (value? read)

/-- The end that the attribute `type` names. -/
def endType? (t : Tree) : Option StartStop := (t.attribute? "type").bind StartStop.ofName?

/-- The attribute has the given value. -/
def attributeIs (t : Tree) (name value : String) : Bool := t.attribute? name = some value

end Markup.Tree

open Markup (Tree)

/-- Records a defect of a measure. -/
def reportMeasure (measure : Int) (fault : MeasureFault) : Reported Unit :=
  reportDefect (.markup (.measure measure fault))

/-- Takes over a value that was read; otherwise reports a fault and keeps the old one. -/
def takeOr {α β : Type} (measure : Int) (fault : MeasureFault) (old : β) (put : α → β) :
    Option α → Reported β
  | some a => pure (put a)
  | none => do
    reportMeasure measure fault
    return old

/-- One child of a `pitch` element. -/
def readPitchChild (measure : Int) (p : Pitch) (child : Tree) : Reported Pitch :=
  let text := child.trimmed
  match child.name with
  | "step" =>
    takeOr measure (.step text) p (fun step => { p with step })
      (text.toList.head?.bind Step.ofLetter?)
  | "octave" => pure { p with octave := (child.value? Text.readSigned).getD 4 }
  | "alter" =>
    takeOr measure (.microtone text) p (fun alter => { p with alter }) (Text.readWhole text)
  | _ => pure p

/-- The pitch of a `pitch` element; what it leaves out is that of middle C. -/
def readPitch (measure : Int) (t : Tree) : Reported Pitch :=
  t.children.foldlM (readPitchChild measure) ⟨.c, 4, 0⟩

/-- One child of an `articulations` element. -/
def addArticulation (m : Markings) (child : Tree) : Markings :=
  match child.name with
  | "staccato" => { m with staccato := true }
  | "accent" => { m with accent := true }
  | "strong-accent" => { m with strongAccent := true }
  | "tenuto" => { m with tenuto := true }
  | _ => m

/-- One child of an `ornaments` element. -/
def addOrnament (m : Markings) (child : Tree) : Markings :=
  match child.name with
  | "tremolo" =>
    let kind := ((child.attribute? "type").bind TremoloKind.ofName?).getD .single
    { m with tremolo := some ⟨kind, (child.value? Text.readByte).getD 3⟩ }
  | "trill-mark" => { m with trillMark := true }
  | _ => m

/-- One child of a `notations` element: it adds to the ties and the markings of a note. -/
def addMarking (s : List StartStop × Markings) (child : Tree) : List StartStop × Markings :=
  let (ties, m) := s
  let ends := child.endType?.toList
  match child.name with
  | "tied" => (ties ++ ends, m)
  | "tuplet" => (ties, { m with tuplets := m.tuplets ++ ends })
  | "slur" => (ties, { m with slurs := m.slurs ++ ends })
  | "fermata" => (ties, { m with fermata := true })
  | "arpeggiate" => (ties, { m with arpeggiate := true })
  | "articulations" => (ties, child.children.foldl addArticulation m)
  | "ornaments" => (ties, child.children.foldl addOrnament m)
  | _ => (ties, m)

/-- A note in the making. -/
structure NoteDraft where
  note : Note
  /-- The ties as they sound, which count where none are drawn. -/
  soundingTies : List StartStop := []
  /-- The note is known to be a pitch, a rest or unpitched. -/
  hasContent : Bool := false

namespace NoteDraft

/-- The draft with a content for its note. -/
def setContent (d : NoteDraft) (content : NoteContent) : NoteDraft :=
  { d with note := { d.note with content }, hasContent := true }

/-- The tuplet ratio of a `time-modification` element, if it is complete. -/
def readRatio (t : Tree) : Option TupletRatio := do
  let actual ← t.childValue? Text.readCount "actual-notes"
  let normal ← t.childValue? Text.readCount "normal-notes"
  return ⟨actual, normal⟩

/-- One child of a `note` element. -/
def addChild (measure : Int) (d : NoteDraft) (child : Tree) : Reported NoteDraft :=
  let n := d.note
  let text := child.trimmed
  match child.name with
  | "grace" =>
    pure { d with note := { n with grace := some ⟨child.attributeIs "slash" "yes"⟩ } }
  | "chord" => pure { d with note := { n with chord := true } }
  | "pitch" => do
    let p ← readPitch measure child
    return d.setContent (.pitch p)
  | "rest" => pure (d.setContent (.rest (child.attributeIs "measure" "yes")))
  | "unpitched" => do
    reportMeasure measure .unpitched
    return { d with hasContent := true }
  | "duration" => pure { d with note := { n with duration := Text.readRatio text } }
  | "tie" => pure { d with soundingTies := d.soundingTies ++ child.endType?.toList }
  | "voice" =>
    takeOr measure (.voice text) d (fun v => { d with note := { n with voice := some v } })
      (Text.readByte text)
  | "type" =>
    takeOr measure (.noteType text) d (fun t => { d with note := { n with noteType := some t } })
      (NoteType.ofName? text)
  | "dot" => pure { d with note := { n with dots := min countLimit (n.dots + 1) } }
  | "accidental" =>
    takeOr measure (.accidental text) d
      (fun a => { d with note := { n with accidental := some a } }) (Accidental.ofName? text)
  | "time-modification" =>
    pure { d with note := { n with ratio := (readRatio child).or n.ratio } }
  | "stem" =>
    takeOr measure (.stem text) d (fun s => { d with note := { n with stem := some s } })
      (Stem.ofName? text)
  | "staff" => pure { d with note := { n with staff := child.value? Text.readByte } }
  | "beam" =>
    let number := ((child.attribute? "number").bind Text.readByte).getD 1
    takeOr measure (.beam text) d
      (fun stroke => { d with note := { n with beams := n.beams ++ [⟨number, stroke⟩] } })
      (BeamStroke.ofName? text)
  | "notations" =>
    let (ties, markings) := child.children.foldl addMarking (n.ties, n.markings)
    pure { d with note := { n with ties, markings } }
  | _ => pure d

/-- The finished note: drawn ties before sounding ones, and beams in ascending order. -/
def finish (d : NoteDraft) : Note :=
  { d.note with
    ties := if d.note.ties.isEmpty then d.soundingTies else d.note.ties
    beams := d.note.beams.mergeSort fun a b => a.number ≤ b.number }

end NoteDraft

/-- The note of a `note` element. -/
def readNote (measure : Int) (t : Tree) : Reported Note := do
  let draft : NoteDraft := { note := { printed := !t.attributeIs "print-object" "no" } }
  let d ← t.children.foldlM (NoteDraft.addChild measure) draft
  if !d.hasContent then reportMeasure measure .neitherPitchNorRest
  return d.finish

end LinearScore
