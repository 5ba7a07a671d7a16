import LinearScore.Json.Basic
import LinearScore.Score
import LinearScore.Diagnostic.Basic

/-!
# Scores and diagnostics as JSON

Every field is present, an absent value is `null`, and an alternative is an object with one member
named for it.

## Main definitions

* `Score.toJson`, `Part.toJson`
* `Diagnostic.toJson`
-/

namespace LinearScore

open Json

/-- A fraction as its numerator and denominator. -/
def ratioJson (q : Rat) : Json := array [int q.num, nat q.den]

/-- The name of a note type as an alternative. -/
def NoteType.variant : NoteType → String
  | d1024 => "N1024th" | d512 => "N512th" | d256 => "N256th" | d128 => "N128th"
  | d64 => "N64th" | d32 => "N32nd" | d16 => "N16th" | eighth => "Eighth"
  | quarter => "Quarter" | half => "Half" | whole => "Whole" | breve => "Breve"
  | long => "Long" | maxima => "Maxima"

/-- The name of an accidental as an alternative. -/
def Accidental.variant : Accidental → String
  | sharp => "Sharp" | flat => "Flat" | natural => "Natural" | doubleSharp => "DoubleSharp"
  | flatFlat => "FlatFlat" | naturalSharp => "NaturalSharp" | naturalFlat => "NaturalFlat"

/-- The name of a stem as an alternative. -/
def Stem.variant : Stem → String
  | up => "Up" | down => "Down" | absent => "NoStem"

/-- The name of an end as an alternative. -/
def StartStop.variant : StartStop → String
  | start => "Start"
  | stop => "Stop"

/-- The name of a beam stroke as an alternative. -/
def BeamStroke.variant : BeamStroke → String
  | start => "Begin" | through => "Continue" | stop => "End"
  | forwardHook => "ForwardHook" | backwardHook => "BackwardHook"

/-- The name of a tremolo kind as an alternative. -/
def TremoloKind.variant : TremoloKind → String
  | single => "Single" | start => "Start" | stop => "Stop" | unmeasured => "Unmeasured"

/-- An end as a value. -/
def StartStop.toJson (e : StartStop) : Json := string e.variant

/-- A clef as a value. -/
def Clef.toJson (c : Clef) : Json :=
  object [("number", ofOption nat c.number), ("sign", string c.sign), ("line", int c.line)]

/-- A key signature as a value. -/
def KeySignature.toJson (k : KeySignature) : Json := object [("fifths", int k.fifths)]

/-- A time signature as a value. -/
def TimeSignature.toJson (t : TimeSignature) : Json :=
  object [("beats", nat t.beats), ("beat_type", nat t.beatType)]

/-- Attributes as a value. -/
def Attributes.toJson (a : Attributes) : Json :=
  object
    [("divisions", ofOption int a.divisions),
     ("key", ofOption KeySignature.toJson a.key),
     ("time", ofOption TimeSignature.toJson a.time),
     ("staves", ofOption nat a.staves),
     ("clefs", ofList Clef.toJson a.clefs)]

/-- A tremolo as a value. -/
def Tremolo.toJson (t : Tremolo) : Json :=
  object [("kind", string t.kind.variant), ("marks", nat t.marks)]

/-- Markings as a value. -/
def Markings.toJson (m : Markings) : Json :=
  object
    [("tuplets", ofList StartStop.toJson m.tuplets),
     ("slurs", ofList StartStop.toJson m.slurs),
     ("fermata", bool m.fermata),
     ("arpeggiate", bool m.arpeggiate),
     ("staccato", bool m.staccato),
     ("accent", bool m.accent),
     ("strong_accent", bool m.strongAccent),
     ("tenuto", bool m.tenuto),
     ("tremolo", ofOption Tremolo.toJson m.tremolo),
     ("trill_mark", bool m.trillMark)]

/-- The content of a note as a value. -/
def NoteContent.toJson : NoteContent → Json
  | .pitch p =>
    object [("Pitch", object
      [("step", string p.step.name), ("octave", int p.octave), ("alter", int p.alter)])]
  | .rest measure => object [("Rest", object [("measure", bool measure)])]

/-- A beam as a value. -/
def Beam.toJson (b : Beam) : Json :=
  object [("number", nat b.number), ("value", string b.stroke.variant)]

/-- A tuplet ratio as a value. -/
def TupletRatio.toJson (r : TupletRatio) : Json :=
  object [("actual", nat r.actual), ("normal", nat r.normal)]

/-- A note as a value. -/
def Note.toJson (n : Note) : Json :=
  object
    [("print_object", bool n.printed),
     ("grace", ofOption (fun g => object [("slash", bool g.slash)]) n.grace),
     ("chord", bool n.chord),
     ("content", n.content.toJson),
     ("duration", ofOption ratioJson n.duration),
     ("ties", ofList StartStop.toJson n.ties),
     ("voice", ofOption nat n.voice),
     ("note_type", ofOption (fun t => string t.variant) n.noteType),
     ("dots", nat n.dots),
     ("accidental", ofOption (fun a => string a.variant) n.accidental),
     ("time_modification", ofOption TupletRatio.toJson n.ratio),
     ("stem", ofOption (fun s => string s.variant) n.stem),
     ("staff", ofOption nat n.staff),
     ("beams", ofList Beam.toJson n.beams),
     ("notations", n.markings.toJson)]

/-- An element as a value. -/
def Element.toJson : Element → Json
  | .attributes a => object [("Attributes", a.toJson)]
  | .note n => object [("Note", n.toJson)]
  | .backup d => object [("Backup", object [("duration", ratioJson d)])]
  | .forward d => object [("Forward", object [("duration", ratioJson d)])]

/-- A measure as a value. -/
def Measure.toJson (m : Measure) : Json :=
  object
    [("number", int m.number),
     ("implicit", bool m.implicit),
     ("new_system", bool m.newSystem),
     ("new_page", bool m.newPage),
     ("elements", ofList Element.toJson m.elements)]

/-- A part as a value. -/
def Part.toJson (p : Part) : Json :=
  object
    [("id", string p.id),
     ("name", string p.name),
     ("measures", ofList Measure.toJson p.measures)]

/-- A score as a value. -/
def Score.toJson (s : Score) : Json :=
  object
    [("title", ofOption string s.title),
     ("composer", ofOption string s.composer),
     ("version", ofOption string s.version),
     ("parts", ofList Part.toJson s.parts)]

/-- A diagnostic as a value. -/
def Diagnostic.toJson (d : Diagnostic) : Json :=
  object
    [("kind", string d.kind.name),
     ("position", ofOption nat d.position),
     ("message", string d.message)]

end LinearScore
