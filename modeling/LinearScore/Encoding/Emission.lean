import LinearScore.Diagnostic.Score
import LinearScore.Cursor

/-!
# What an element emits

Each element of a measure emits tokens and faults in a fixed order: leading modifiers, the root,
trailing modifiers, and then what does not add up.  Which tokens these are depends on a small state
that the elements before it leave.  Voice, stem and staff are written only where they change, and
are forgotten at the start of a measure and at every backup.

## Main definitions

* `Emission`: a token or a fault
* `EncodingState`, `EncodingState.after`: the state behind an element
* `EncodingState.emissions`: what an element emits
* `EncodingState.arithmetic`: what is computed at an element by the integers of the machine
-/

namespace LinearScore

/-- A token to be written or a fault to be reported. -/
inductive Emission where
  | token (t : Terminal)
  | fault (f : ScoreFault)
  deriving DecidableEq

/-- The values of the notes before, up to the start of the measure or the last backup. -/
structure EncodingSticky where
  voice : Option Nat := none
  stem : Option Stem := none
  staff : Option Nat := none
  previousDuration : Option Rat := none
  previousPitch : Option Pitch := none
  deriving DecidableEq

/-- What the elements before leave. -/
structure EncodingState where
  divisions : Option Int := none
  /-- The length of a full measure in ticks, taken where the time signature stands. -/
  fullMeasure : Option Rat := none
  staves : Option Nat := none
  sticky : EncodingSticky := {}
  /-- The ticks since the start of the measure. -/
  onset : Rat := 0
  deriving DecidableEq

namespace EncodingState

/-- The divisions behind some attributes; only positive ones count. -/
def divisionsAfter (s : EncodingState) (a : Attributes) : Option Int :=
  match a.divisions with
  | some d => if 0 < d then some d else s.divisions
  | none => s.divisions

/-- The length of a full measure behind some attributes. -/
def fullMeasureAfter (s : EncodingState) (a : Attributes) : Option Rat :=
  match a.time with
  | some time => (s.divisionsAfter a).map fun d => measureLength time * d
  | none => s.fullMeasure

/-- The state behind some attributes. -/
def afterAttributes (s : EncodingState) (a : Attributes) : EncodingState :=
  { s with
    divisions := s.divisionsAfter a
    fullMeasure := s.fullMeasureAfter a
    staves := a.staves.or s.staves }

/-- The state behind a note. -/
def afterNote (s : EncodingState) (n : Note) : EncodingState :=
  { s with
    sticky :=
      { voice := n.voice.or s.sticky.voice
        stem := n.stem.or s.sticky.stem
        staff := n.staff.or s.sticky.staff
        previousDuration := n.duration
        previousPitch := n.pitch? }
    onset := if n.chord then s.onset else s.onset + n.duration.getD 0 }

/-- The state behind an element. -/
def after (s : EncodingState) : Element → EncodingState
  | .attributes a => s.afterAttributes a
  | .note n => s.afterNote n
  | .backup d => { s with sticky := {}, onset := s.onset - d }
  | .forward d => { s with onset := s.onset + d }

/-- The state at the start of a measure. -/
def startMeasure (s : EncodingState) : EncodingState := { s with sticky := {}, onset := 0 }

end EncodingState

/-- A token that an optional value asks for. -/
def emitSome {α : Type} (build : α → Terminal) : Option α → List Emission
  | some a => [.token (build a)]
  | none => []

/-- A token under a condition. -/
def emitIf (condition : Bool) (t : Terminal) : List Emission :=
  if condition then [.token t] else []

/-- A fault under a condition. -/
def faultIf (condition : Bool) (f : ScoreFault) : List Emission :=
  if condition then [.fault f] else []

/-- A sticky value is written where it differs from the one before. -/
def emitChanged {α : Type} [DecidableEq α] (build : α → Terminal) (old new : Option α) :
    List Emission :=
  match new with
  | some a => if old = some a then [] else [.token (build a)]
  | none => []

/-- The line of a clef as a payload; lines that no clef has become zero, which is refused. -/
def clefLine (line : Int) : Nat := if 0 ≤ line && line ≤ 255 then line.toNat else 0

/-- The terminal of a clef, if its sign is in the vocabulary. -/
def Clef.terminal? (c : Clef) : Option Terminal :=
  (ClefSign.ofName? c.sign).map fun sign => .clef sign (clefLine c.line)

/-- A table by ascending staff with one entry put in. -/
def putStaff (staff : Nat) (t : Terminal) : List (Nat × Terminal) → List (Nat × Terminal)
  | [] => [(staff, t)]
  | (other, u) :: rest =>
    if staff < other then (staff, t) :: (other, u) :: rest
    else if staff = other then (staff, t) :: rest
    else (other, u) :: putStaff staff t rest

/-- The terminals of clefs by ascending staff, the last clef of each staff. -/
def clefTable (clefs : List Clef) : List (Nat × Terminal) :=
  clefs.foldl (fun table c =>
    match c.terminal? with
    | some t => putStaff c.staff t table
    | none => table) []

/-- What clefs emit.  The staff is written only where a number of staves has been declared. -/
def clefEmissions (staves : Option Nat) (clefs : List Clef) : List Emission :=
  (clefs.filter (·.terminal?.isNone)).map (fun c => .fault (.clefSign c.sign)) ++
  (clefTable clefs).flatMap fun (staff, t) => .token t :: emitIf staves.isSome (.staff staff)

/-- What a time signature emits. -/
def timeEmissions (divisions : Option Int) (time : TimeSignature) : List Emission :=
  [.token .time, .token (.beats time.beats), .token (.beatType time.beatType)] ++
  faultIf divisions.isNone .timeBeforeDivisions

/-- What a declaration of divisions emits. -/
def divisionsEmissions : Option Int → List Emission
  | some d => faultIf (d ≤ 0) (.divisions d)
  | none => []

/-- What a marking at a note emits beyond ties and tuplets. -/
def markingEmissions (m : Markings) : List Emission :=
  m.slurs.map (fun e => .token (.slur e)) ++
  emitIf m.fermata .fermata ++
  emitIf m.arpeggiate .arpeggiate ++
  emitIf m.staccato .staccato ++
  emitIf m.accent .accent ++
  emitIf m.strongAccent .strongAccent ++
  emitIf m.tenuto .tenuto ++
  m.tremolo.toList.flatMap (fun t =>
    [.token (.tremoloKind t.kind), .token (.tremoloMarks t.marks)]) ++
  emitIf m.trillMark .trillMark

/-- What the content of a note emits. -/
def contentEmissions : NoteContent → List Emission
  | .rest _ => [.token .rest]
  | .pitch p =>
    if 0 ≤ p.octave && p.octave ≤ 255 then [.token (.pitch p.step p.octave.toNat)]
    else [.fault (.octave p.step p.octave)]

/-- What the grace of a note emits. -/
def graceEmissions : Option Grace → List Emission
  | some g => .token .grace :: emitIf g.slash .graceSlash
  | none => []

/-- What the root of a note emits. -/
def rootEmissions (n : Note) : List Emission :=
  match n.noteType with
  | some t => [.token (.noteType t)]
  | none => if n.isMeasureRest then [.token .measureRest] else [.fault .noType]

/-- What the staff of a note emits. -/
def staffEmissions (staves old new : Option Nat) : List Emission :=
  faultIf (new.isSome && staves.isNone) (.staffWithoutStaves (new.getD 0)) ++
  emitChanged .staff old new

/-- What the duration of a note emits: a fault where it does not agree with the type of the note,
or with the time signature for a measure rest. -/
def durationEmissions (divisions : Option Int) (fullMeasure : Option Rat) (n : Note) :
    List Emission :=
  match n.duration with
  | none => []
  | some duration =>
    if n.isMeasureRest then
      faultIf (fullMeasure ≠ some duration) (.measureRestLength fullMeasure duration)
    else
      match n.noteType, divisions with
      | some t, some d =>
        let (ticks, exact) := expectedTicks t n.dots n.ratio d
        faultIf ((ticks : Rat) ≠ duration) (.noteLength exact duration)
      | _, _ => []

/-- What a further note of a chord emits: faults where it does not go with the note before it. -/
def chordEmissions (s : EncodingSticky) (n : Note) : List Emission :=
  if n.chord then
    faultIf (n.duration ≠ s.previousDuration) .chordLengths ++
    match s.previousPitch, n.pitch? with
    | some previous, some current => faultIf (current.order < previous.order) .descendingChord
    | _, _ => []
  else []

/-- What a duration emits behind a marker: pairs of the marker and a note type, the longest
first. -/
def skipEmissions (divisions : Option Int) (marker : Terminal) (duration : Rat) : List Emission :=
  match divisions with
  | none => [.fault (.skipBeforeDivisions marker)]
  | some d =>
    if duration.den ≠ 1 || duration ≤ 0 then [.fault (.skipLength marker duration)]
    else
      let (types, remainder) := ladder duration.num d
      types.flatMap (fun t => [.token marker, .token (.noteType t)]) ++
      faultIf (remainder ≠ 0) (.skipRemainder marker duration d remainder)

namespace EncodingState

/-- What attributes emit. -/
def attributesEmissions (s : EncodingState) (a : Attributes) : List Emission :=
  let after := s.afterAttributes a
  divisionsEmissions a.divisions ++
  emitSome (fun (k : KeySignature) => .key k.fifths) a.key ++
  a.time.toList.flatMap (timeEmissions after.divisions) ++
  clefEmissions after.staves a.clefs

/-- The modifiers in front of the root of a note. -/
def leadingEmissions (s : EncodingState) (n : Note) : List Emission :=
  emitIf (!n.printed) .unprinted ++
  graceEmissions n.grace ++
  emitIf n.chord .chord ++
  contentEmissions n.content ++
  emitChanged .voice s.sticky.voice n.voice

/-- The modifiers behind the root of a note. -/
def trailingEmissions (s : EncodingState) (n : Note) : List Emission :=
  emitSome .ratio n.ratio ++
  List.replicate n.dots (.token .dot) ++
  emitSome .accidental n.accidental ++
  emitChanged .stem s.sticky.stem n.stem ++
  staffEmissions s.staves s.sticky.staff n.staff ++
  (n.beams.filterMap fun b => BeamMark.ofStroke? b.stroke).map (fun b => .token (.beam b)) ++
  n.ties.map (fun e => .token (.tied e)) ++
  n.markings.tuplets.map (fun e => .token (.tuplet e)) ++
  markingEmissions n.markings

/-- The faults of a note that come last. -/
def lengthEmissions (s : EncodingState) (n : Note) : List Emission :=
  faultIf (n.duration.isNone && n.grace.isNone) .noDuration ++
  durationEmissions s.divisions s.fullMeasure n ++
  chordEmissions s.sticky n

/-- What a note emits. -/
def noteEmissions (s : EncodingState) (n : Note) : List Emission :=
  s.leadingEmissions n ++ rootEmissions n ++ s.trailingEmissions n ++ s.lengthEmissions n

/-- What an element emits. -/
def emissions (s : EncodingState) : Element → List Emission
  | .attributes a => s.attributesEmissions a
  | .note n => s.noteEmissions n
  | .backup d =>
    skipEmissions s.divisions .backup d ++ faultIf (s.onset < d) (.backupBeyondOnset d s.onset)
  | .forward d => skipEmissions s.divisions .forward d

/-- The length of a full measure in ticks is computed where the time signature stands. -/
def attributesArithmetic (s : EncodingState) (a : Attributes) : Checked Unit :=
  match a.time, s.divisionsAfter a with
  | some time, some d => do
    let length ← Machine.measureLength time
    discard (Machine.fraction (length * (d : Rat)))
  | _, _ => return ()

/-- The ticks of a note are computed to be compared with its duration, unless it stands for a
measure. -/
def lengthArithmetic (s : EncodingState) (n : Note) : Checked Unit :=
  match n.duration, n.isMeasureRest, n.noteType, s.divisions with
  | some _, false, some t, some d => discard (Machine.expectedTicks t n.dots n.ratio d)
  | _, _, _, _ => return ()

/-- The pitches of two notes of a chord are compared by their order, a number of 32 bits. -/
def orderArithmetic (s : EncodingState) (n : Note) : Checked Unit :=
  match n.chord, s.sticky.previousPitch, n.pitch? with
  | true, some previous, some current => do
    discard (Machine.order previous)
    discard (Machine.order current)
  | _, _, _ => return ()

/-- The ladder of a skip is computed where its duration is a positive number of ticks. -/
def skipArithmetic (s : EncodingState) (duration : Rat) : Checked Unit :=
  match s.divisions with
  | some d =>
    if duration.den ≠ 1 || duration ≤ 0 then return ()
    else discard (Machine.ladder duration.num d)
  | none => return ()

/-- What is computed at an element. -/
def arithmetic (s : EncodingState) (e : Element) : Checked Unit := do
  match e with
  | .attributes a => s.attributesArithmetic a
  | .note n => do
    s.lengthArithmetic n
    s.orderArithmetic n
  | .backup d => s.skipArithmetic d
  | .forward d => s.skipArithmetic d
  discard (Machine.move s.onset e)

end EncodingState

end LinearScore
