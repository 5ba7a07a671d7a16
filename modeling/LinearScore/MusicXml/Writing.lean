import LinearScore.Score
import LinearScore.Markup.Outline
import LinearScore.Text.Ratio

/-!
# Writing scores

A score is written as a document of MusicXML 4.0.  Durations are written as they are: ticks as
integers, fractions of a quarter as `n/d`.

## Main definitions

* `Part.outline`, `Score.outline`: what is written
* `Part.toMarkup`, `Score.toMarkup`: its text
-/

namespace LinearScore

open Markup (Outline)
open Markup.Outline

/-- An element with a number as its text. -/
def natField (name : String) (n : Nat) : Outline := field name (toString n)

/-- An element with a signed number as its text. -/
def intField (name : String) (n : Int) : Outline := field name (toString n)

/-- An element with a duration as its text. -/
def durationField (d : Rat) : Outline := field "duration" (Text.ratio d)

/-- An empty element with an end as its type. -/
def endMark (name : String) (e : StartStop) : Outline := empty name [("type", e.name)]

/-- The clef as it is written. -/
def Clef.outline (c : Clef) : Outline :=
  block "clef" (c.number.toList.map fun n => ("number", toString n))
    [field "sign" c.sign, intField "line" c.line]

/-- The attributes as they are written. -/
def Attributes.outline (a : Attributes) : Outline :=
  block "attributes" [] <|
    ofOption (intField "divisions") a.divisions ++
    ofOption (fun (k : KeySignature) => block "key" [] [intField "fifths" k.fifths]) a.key ++
    ofOption (fun (t : TimeSignature) =>
      block "time" [] [natField "beats" t.beats, natField "beat-type" t.beatType]) a.time ++
    ofOption (natField "staves") a.staves ++
    a.clefs.map Clef.outline

/-- The pitch as it is written; an alteration of zero is left out. -/
def Pitch.outline (p : Pitch) : Outline :=
  block "pitch" [] <|
    field "step" p.step.name ::
    onlyIf (p.alter ≠ 0) (intField "alter" p.alter) ++
    [intField "octave" p.octave]

/-- The content of a note as it is written. -/
def NoteContent.outline : NoteContent → Outline
  | .pitch p => p.outline
  | .rest measure => empty "rest" (if measure then [("measure", "yes")] else [])

/-- The tremolo as it is written. -/
def Tremolo.outline (t : Tremolo) : Outline :=
  leaf "tremolo" [("type", t.kind.name)] (toString t.marks)

/-- The ornaments as they are written, if there are any. -/
def Markings.ornaments (m : Markings) : List Outline :=
  onlyIf (m.tremolo.isSome || m.trillMark) <| block "ornaments" [] <|
    onlyIf m.trillMark (empty "trill-mark" []) ++ ofOption Tremolo.outline m.tremolo

/-- The articulations as they are written, if there are any. -/
def Markings.articulations (m : Markings) : List Outline :=
  onlyIf (m.accent || m.strongAccent || m.staccato || m.tenuto) <| block "articulations" [] <|
    onlyIf m.accent (empty "accent" []) ++
    onlyIf m.strongAccent (empty "strong-accent" []) ++
    onlyIf m.staccato (empty "staccato" []) ++
    onlyIf m.tenuto (empty "tenuto" [])

/-- The markings and the drawn ties as they are written. -/
def Markings.outline (ties : List StartStop) (m : Markings) : Outline :=
  block "notations" [] <|
    ties.map (endMark "tied") ++
    m.slurs.map (endMark "slur") ++
    m.tuplets.map (endMark "tuplet") ++
    m.ornaments ++
    m.articulations ++
    onlyIf m.fermata (empty "fermata" []) ++
    onlyIf m.arpeggiate (empty "arpeggiate" [])

/-- The beam as it is written. -/
def Beam.outline (b : Beam) : Outline :=
  leaf "beam" [("number", toString b.number)] b.stroke.name

/-- The tuplet ratio as it is written. -/
def TupletRatio.outline (r : TupletRatio) : Outline :=
  block "time-modification" []
    [natField "actual-notes" r.actual, natField "normal-notes" r.normal]

/-- The note as it is written. -/
def Note.outline (n : Note) : Outline :=
  block "note" (if n.printed then [] else [("print-object", "no")]) <|
    ofOption (fun (g : Grace) => empty "grace" (if g.slash then [("slash", "yes")] else []))
      n.grace ++
    onlyIf n.chord (empty "chord" []) ++
    [n.content.outline] ++
    ofOption durationField n.duration ++
    n.ties.map (endMark "tie") ++
    ofOption (natField "voice") n.voice ++
    ofOption (fun t => field "type" t.name) n.noteType ++
    List.replicate n.dots (empty "dot" []) ++
    ofOption (fun a => field "accidental" a.name) n.accidental ++
    ofOption TupletRatio.outline n.ratio ++
    ofOption (fun s => field "stem" s.name) n.stem ++
    ofOption (natField "staff") n.staff ++
    n.beams.map Beam.outline ++
    onlyIf (!n.ties.isEmpty || n.markings ≠ {}) (n.markings.outline n.ties)

/-- The element as it is written. -/
def Element.outline : Element → Outline
  | .attributes a => a.outline
  | .note n => n.outline
  | .backup d => block "backup" [] [durationField d]
  | .forward d => block "forward" [] [durationField d]

/-- The layout break of a measure as it is written; a page break is a system break too. -/
def Measure.breakOutline (m : Measure) : List Outline :=
  if m.newPage then [empty "print" [("new-page", "yes")]]
  else onlyIf m.newSystem (empty "print" [("new-system", "yes")])

/-- The measure as it is written. -/
def Measure.outline (m : Measure) : Outline :=
  let implicit := if m.implicit then [("implicit", "yes")] else []
  block "measure" (("number", toString m.number) :: implicit)
    (m.breakOutline ++ m.elements.map Element.outline)

/-- The part as it is written. -/
def Part.outline (p : Part) : Outline :=
  block "part" [("id", p.id)] (p.measures.map Measure.outline)

/-- The announcement of a part as it is written. -/
def Part.listing (p : Part) : Outline :=
  block "score-part" [("id", p.id)] [field "part-name" p.name]

/-- The score as it is written. -/
def Score.outline (s : Score) : Outline :=
  block "score-partwise" [("version", s.version.getD "4.0")] <|
    ofOption (fun title => block "work" [] [field "work-title" title]) s.title ++
    ofOption (fun composer => block "identification" []
      [leaf "creator" [("type", "composer")] composer]) s.composer ++
    [block "part-list" [] (s.parts.map Part.listing)] ++
    s.parts.map Part.outline

/-- The text of a part on its own, at a level of indentation. -/
def Part.toMarkup (depth : Nat) (p : Part) : String := p.outline.text depth

/-- The lines in front of the root of a document. -/
def documentHead : String :=
  "<?xml version=\"1.0\" encoding=\"UTF-8\"?>\n" ++
  "<!DOCTYPE score-partwise PUBLIC \"-//Recordare//DTD MusicXML 4.0 Partwise//EN\" " ++
  "\"http://www.musicxml.org/dtds/partwise.dtd\">\n"

/-- The document of a score. -/
def Score.toMarkup (s : Score) : String := documentHead ++ s.outline.text 0

end LinearScore
