import LinearScore.Beaming

/-!
# From items to elements

An item becomes an element of a measure: attribute items in a row share one `attributes` element,
an item with a backup or forward marker moves the cursor, and any other item is a note or rest.
Voice, stem and staff are sticky: a note without such a modifier has the value of the note before
it, up to the start of the measure or the last backup.

## Main definitions

* `Sticky`, `DecodingState`: what is carried from item to item
* `DecodingState.attributes`, `DecodingState.skip`, `DecodingState.note`: one item
-/

namespace LinearScore

/-- The values that a note takes over from the notes before it. -/
structure Sticky where
  voice : Option Nat := none
  stem : Option Stem := none
  staff : Option Nat := none
  previousPitch : Option Pitch := none
  /-- The duration of the first note of the current chord. -/
  chordLength : Option Rat := none
  deriving DecidableEq

/-- What is carried from item to item. -/
structure DecodingState where
  /-- The length of a full measure in quarters, by the last time signature. -/
  fullMeasure : Option Rat := none
  beams : BeamState := {}
  sticky : Sticky := {}
  deriving DecidableEq

namespace DecodingState

/-- The time signature that an item states; missing numbers are reported and count as four. -/
def timeSignature (item : Item) : Reported TimeSignature := do
  let (beats, beatType) ← item.timeFields
  if beats.isNone then report item.root.position .missingBeats
  if beatType.isNone then report item.root.position .missingBeatType
  return ⟨beats.getD 4, beatType.getD 4⟩

/-- Adds what an attribute item states to the attributes of its run.  The first key and the last
time signature of a run count. -/
def attributes (s : DecodingState) (a : Attributes) (item : Item) :
    Reported (Attributes × DecodingState) :=
  match item.root.terminal with
  | .key fifths => do
    item.reportKeyModifiers
    if a.key.isSome then
      report item.root.position .secondKey
      return (a, s)
    else
      return ({ a with key := some ⟨fifths⟩ }, s)
  | .time => do
    let time ← timeSignature item
    let length ← (Machine.measureLength time).reported
    return ({ a with time := some time }, { s with fullMeasure := some length })
  | .clef sign line => do
    let number ← item.clefStaff
    return ({ a with clefs := a.clefs ++ [⟨number, sign.name, line⟩] }, s)
  | _ => pure (a, s)

/-- The backup or forward of an item with a marker.  A backup forgets the sticky values. -/
def skip (s : DecodingState) (item : Item) (marker : Terminal) :
    Reported (Option Element × DecodingState) := do
  let ratio ← item.skipRatio marker
  match item.root.terminal with
  | .noteType t =>
    let length ← (Machine.noteLength t 0 ratio).reported
    if marker = .backup then
      return (some (.backup length), { s with sticky := {} })
    else
      return (some (.forward length), s)
  | root =>
    report item.root.position (.skipRoot root marker)
    return (none, s)

theorem value_skip (s : DecodingState) (item : Item) (marker : Terminal) :
    (s.skip item marker).value =
      match item.root.terminal with
      | .noteType t =>
        let length := noteLength t 0 (item.skipRatio marker).value
        if marker = .backup then (some (.backup length), { s with sticky := {} })
        else (some (.forward length), s)
      | _ => (none, s) := by
  unfold skip
  rw [Reported.value_bind]
  split
  · rw [Reported.value_bind, Checked.value_reported, Machine.value_noteLength]
    split
    · rfl
    · rfl
  · rfl

/-- What a note is: a rest when it says so or stands for a measure, else its pitch. -/
def noteContent (root : Token) (measureRest : Bool) (f : NoteFields) : Reported NoteContent :=
  if f.rest.isSome || measureRest then do
    match f.pitch with
    | some (step, octave, position) => report position (.pitchOnRest step octave)
    | none => pure ()
    if f.rest.isNone then report root.position .measureRestWithoutRest
    return .rest measureRest
  else
    match f.pitch with
    | some (step, octave, _) => pure (.pitch ⟨step, octave, 0⟩)
    | none => do
      report root.position .neitherPitchNorRest
      return .rest false

/-- The pitch of a note's content, if it is no rest. -/
def contentPitch? : NoteContent → Option Pitch
  | .pitch p => some p
  | .rest _ => none

/-- The sticky values after the modifiers of a note. -/
def stick (s : Sticky) (f : NoteFields) : Sticky :=
  { s with voice := f.voice.or s.voice, stem := f.stem.or s.stem, staff := f.staff.or s.staff }

/-- Reports a note of a chord that lies below the note before it. -/
def reportDescent (s : Sticky) (root : Token) (chord : Bool) (content : NoteContent) :
    Reported Unit :=
  match chord, s.previousPitch, contentPitch? content with
  | true, some previous, some current =>
    if current.order < previous.order then report root.position .descendingChord else pure ()
  | _, _, _ => pure ()

/-- The duration of a note in quarters: none for a grace note, that of the measure for a measure
rest. -/
def noteDuration (s : DecodingState) (root : Token) (noteType : Option NoteType)
    (f : NoteFields) : Reported (Option Rat) :=
  if f.grace then pure none
  else
    match noteType with
    | some t => do
      let length ← (Machine.noteLength t f.dots f.ratio).reported
      return some length
    | none => do
      if s.fullMeasure.isNone then report root.position .measureRestOfUnknownLength
      return s.fullMeasure

theorem value_noteDuration (s : DecodingState) (root : Token) (noteType : Option NoteType)
    (f : NoteFields) :
    (s.noteDuration root noteType f).value =
      if f.grace then none
      else noteType.elim s.fullMeasure fun t => some (noteLength t f.dots f.ratio) := by
  unfold noteDuration
  split
  · rfl
  · cases noteType with
    | some t => exact congrArg some (Machine.value_noteLength t f.dots f.ratio)
    | none =>
      dsimp only [Option.elim]
      split
      · rfl
      · rfl

/-- Reports a note of a chord that lasts longer or shorter than the first one. -/
def reportChordLength (s : Sticky) (root : Token) (chord : Bool) (duration : Option Rat) :
    Reported Unit :=
  match chord, s.chordLength, duration with
  | true, some head, some current =>
    if head ≠ current then report root.position (.chordLength current head) else pure ()
  | _, _, _ => pure ()

/-- The tremolo of a note; one without marks is reported and gets three. -/
def tremolo (root : Token) (f : NoteFields) : Reported (Option Tremolo) :=
  match f.tremoloKind, f.tremoloMarks with
  | none, none => pure none
  | kind, some marks => pure (some ⟨kind.getD .single, marks⟩)
  | some kind, none => do
    report root.position (.tremoloWithoutMarks kind)
    return some ⟨kind, 3⟩

/-- The note type of a root; a measure rest has none. -/
def rootType? : Terminal → Option NoteType
  | .noteType t => some t
  | _ => none

/-- The note or rest of an item. -/
def note (s : DecodingState) (item : Item) : Reported (Note × DecodingState) := do
  let root := item.root
  let f ← item.noteFields
  let noteType := rootType? root.terminal
  if f.graceSlash && !f.grace then report root.position .slashWithoutGrace
  let content ← noteContent root noteType.isNone f
  let sticky := stick s.sticky f
  reportDescent s.sticky root f.chord content
  let duration ← s.noteDuration root noteType f
  reportChordLength s.sticky root f.chord duration
  let (beams, beamState) ← s.beams.resolve
    { marks := f.beams.map (·.1), grace := f.grace, chord := f.chord,
      beamable := noteType.elim false NoteType.beamable, position := root.position }
  let tremolo ← tremolo root f
  let note : Note :=
    { printed := !f.unprinted
      grace := if f.grace then some ⟨f.graceSlash⟩ else none
      chord := f.chord
      content, duration
      ties := f.ties
      voice := sticky.voice
      noteType
      dots := f.dots
      accidental := f.accidental
      ratio := f.ratio
      stem := sticky.stem
      staff := sticky.staff
      beams
      markings := { f.markings with tremolo } }
  let sticky : Sticky :=
    { sticky with
      previousPitch := contentPitch? content
      chordLength := if f.chord then s.sticky.chordLength else duration }
  return (note, { s with beams := beamState, sticky })

end DecodingState

/-- The marker that makes an item a backup or forward: the one nearest to the root. -/
def Item.marker? (item : Item) : Option Terminal :=
  (item.leading.reverse.map (·.terminal)).find? fun t => t = .backup || t = .forward

/-- The element of an item that is no attribute item, if it has one. -/
def DecodingState.element (s : DecodingState) (item : Item) :
    Reported (Option Element × DecodingState) :=
  match item.marker? with
  | some marker => s.skip item marker
  | none => do
    let (note, s) ← s.note item
    return (some (.note note), s)

end LinearScore
