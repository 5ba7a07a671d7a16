import LinearScore.Pitch
import LinearScore.Rhythm

/-!
# Scores

A score is a list of parts, a part a list of measures, and a measure an ordered list of elements:
notes and rests, attributes, and moves of the time cursor backward or forward.  Durations are
integer ticks in a part whose attributes declare divisions per quarter, and fractions of a quarter
in a part without divisions.

## Main definitions

* `Score`, `Part`, `Measure`, `Element`, `Attributes`, `Note`
* `Part.sameContent`: equality up to numbering and layout breaks
* `Measure.headAttributes?`, `Measure.withHead`: the attributes that open a measure
-/

namespace LinearScore

/-- One end of a tie, slur or tuplet. -/
inductive StartStop where
  | start | stop
  deriving DecidableEq

/-- The name of an end, the same in tokens and in markup. -/
def StartStop.name : StartStop → String
  | start => "start"
  | stop => "stop"

/-- The end with a given name. -/
def StartStop.ofName? (name : String) : Option StartStop :=
  [start, stop].find? (·.name = name)

/-- The direction of a stem. -/
inductive Stem where
  | up | down | absent
  deriving DecidableEq

namespace Stem

/-- All stems in the order of the vocabulary. -/
def all : List Stem := [up, down, absent]

/-- The name of a stem, the same in tokens and in markup. -/
def name : Stem → String
  | up => "up" | down => "down" | absent => "none"

/-- The stem with a given name. -/
def ofName? (name : String) : Option Stem := all.find? (·.name = name)

end Stem

/-- What a beam does at a note. -/
inductive BeamStroke where
  | start | through | stop | forwardHook | backwardHook
  deriving DecidableEq

namespace BeamStroke

/-- All strokes. -/
def all : List BeamStroke := [start, through, stop, forwardHook, backwardHook]

/-- The name of a stroke in markup. -/
def name : BeamStroke → String
  | start => "begin" | through => "continue" | stop => "end"
  | forwardHook => "forward hook" | backwardHook => "backward hook"

/-- The stroke with a given name in markup. -/
def ofName? (name : String) : Option BeamStroke := all.find? (·.name = name)

end BeamStroke

/-- A beam at a note; number one is the beam of an eighth note. -/
structure Beam where
  number : Nat
  stroke : BeamStroke
  deriving DecidableEq

/-- The kind of a tremolo. -/
inductive TremoloKind where
  | single | start | stop | unmeasured
  deriving DecidableEq

namespace TremoloKind

/-- All kinds in the order of the vocabulary. -/
def all : List TremoloKind := [single, start, stop, unmeasured]

/-- The name of a kind, the same in tokens and in markup. -/
def name : TremoloKind → String
  | single => "single" | start => "start" | stop => "stop" | unmeasured => "unmeasured"

/-- The kind with a given name. -/
def ofName? (name : String) : Option TremoloKind := all.find? (·.name = name)

end TremoloKind

/-- A tremolo with its number of marks. -/
structure Tremolo where
  kind : TremoloKind
  marks : Nat
  deriving DecidableEq

/-- The markings at a note that a score keeps. -/
structure Markings where
  tuplets : List StartStop := []
  slurs : List StartStop := []
  fermata : Bool := false
  arpeggiate : Bool := false
  staccato : Bool := false
  accent : Bool := false
  strongAccent : Bool := false
  tenuto : Bool := false
  tremolo : Option Tremolo := none
  trillMark : Bool := false
  deriving DecidableEq

/-- A grace note, with or without a slash through its stem. -/
structure Grace where
  slash : Bool
  deriving DecidableEq

/-- What a note is: a pitch, or a rest that may stand for a whole measure. -/
inductive NoteContent where
  | pitch (pitch : Pitch)
  | rest (measure : Bool)
  deriving DecidableEq

/-- A note or rest.  Grace notes have no duration. -/
structure Note where
  printed : Bool := true
  grace : Option Grace := none
  chord : Bool := false
  content : NoteContent := .rest false
  duration : Option Rat := none
  ties : List StartStop := []
  voice : Option Nat := none
  noteType : Option NoteType := none
  dots : Nat := 0
  accidental : Option Accidental := none
  ratio : Option TupletRatio := none
  stem : Option Stem := none
  staff : Option Nat := none
  beams : List Beam := []
  markings : Markings := {}
  deriving DecidableEq

namespace Note

/-- A rest with no modifiers. -/
def plainRest (t : NoteType) (duration : Rat) : Note :=
  { noteType := some t, duration := some duration }

/-- A pitched note with no modifiers. -/
def pitched (step : Step) (octave : Int) (t : NoteType) (duration : Rat) : Note :=
  { plainRest t duration with content := .pitch ⟨step, octave, 0⟩ }

/-- The pitch of a note, if it is no rest. -/
def pitch? (n : Note) : Option Pitch :=
  match n.content with
  | .pitch p => some p
  | .rest _ => none

/-- The note is a rest. -/
def isRest (n : Note) : Bool := n.pitch?.isNone

/-- The note is a rest that stands for the whole measure. -/
def isMeasureRest (n : Note) : Bool := n.content = .rest true

end Note

/-- A key signature: sharps, or flats when negative. -/
structure KeySignature where
  fifths : Int
  deriving DecidableEq

/-- A clef as a score states it; the sign is any text. -/
structure Clef where
  number : Option Nat
  sign : String
  line : Int
  deriving DecidableEq

/-- The staff that a clef is for: a clef without a number is for the first. -/
def Clef.staff (c : Clef) : Nat := c.number.getD 1

/-- Attributes of the music from some point on; what is absent stays as it was. -/
structure Attributes where
  divisions : Option Int := none
  key : Option KeySignature := none
  time : Option TimeSignature := none
  staves : Option Nat := none
  clefs : List Clef := []
  deriving DecidableEq

/-- The attributes state nothing. -/
def Attributes.isEmpty (a : Attributes) : Bool := a = {}

/-- One element of a measure. -/
inductive Element where
  | attributes (attributes : Attributes)
  | note (note : Note)
  | backup (duration : Rat)
  | forward (duration : Rat)
  deriving DecidableEq

/-- The note that an element is, if it is one. -/
def Element.note? : Element → Option Note
  | .note n => some n
  | _ => none

/-- The attributes that an element is, if it is some. -/
def Element.attributes? : Element → Option Attributes
  | .attributes a => some a
  | _ => none

/-- The duration that an element carries, if any. -/
def Element.duration? : Element → Option Rat
  | .attributes _ => none
  | .note n => n.duration
  | .backup d => some d
  | .forward d => some d

/-- A measure with its number, its layout breaks and its elements in document order. -/
structure Measure where
  number : Int
  implicit : Bool := false
  newSystem : Bool := false
  newPage : Bool := false
  elements : List Element := []
  deriving DecidableEq

namespace Measure

/-- The attributes that open a measure, if it opens with some. -/
def headAttributes? (m : Measure) : Option Attributes := m.elements.head?.bind Element.attributes?

/-- The measure with its opening attributes changed by `f`, put in front first if it has none. -/
def withHead (m : Measure) (f : Attributes → Attributes) : Measure :=
  match m.elements with
  | .attributes a :: rest => { m with elements := .attributes (f a) :: rest }
  | elements => { m with elements := .attributes (f {}) :: elements }

/-- The notes of a measure in document order. -/
def notes (m : Measure) : List Note := m.elements.filterMap Element.note?

end Measure

/-- A part of a score: here, what one player reads. -/
structure Part where
  id : String
  name : String := ""
  measures : List Measure := []
  deriving DecidableEq

/-- All elements of a part in document order. -/
def Part.elements (p : Part) : List Element := p.measures.flatMap (·.elements)

/-- The measures of the parts have the same elements, whatever their numbers and breaks. -/
def Part.sameContent (p q : Part) : Bool :=
  p.measures.map (·.elements) = q.measures.map (·.elements)

/-- A score of parts. -/
structure Score where
  title : Option String := none
  composer : Option String := none
  version : Option String := none
  parts : List Part := []
  deriving DecidableEq

/-- The number of measures of the first part. -/
def Score.measureCount (s : Score) : Nat := s.parts.head?.elim 0 (·.measures.length)

/-- A part on its own as a score; a part without a name becomes a piano. -/
def Score.ofPart (p : Part) : Score :=
  { version := some "4.0", parts := [if p.name = "" then { p with name := "Piano" } else p] }

/-- Counts of dots and numbers of beams stop at this value. -/
def countLimit : Nat := 255

end LinearScore
