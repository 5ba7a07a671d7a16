import LinearScore.Cursor
import LinearScore.Sequence

/-!
# Alterations

Tokens give the step and octave of a note and the accidental before it, not how it sounds.  The
alteration is inferred as a reader of the page would: from the last accidental in the measure at
the same staff position, else from the key signature; a note that ends a tie sounds like the note
that started it.

## Main definitions

* `Place`: a staff position
* `carriedAccidental`: the accidental in force at a place and a time
* `Part.inferAlterations`: the part with every alteration inferred
* `Machine.inferAlterations`: the same with the times of the notes by the integers of the machine

Times are exact fractions that are only compared with each other, so the inference works on ticks
and on quarters.
-/

namespace LinearScore

/-- A position on the page: staff, step and octave. -/
structure Place where
  staff : Nat
  step : Step
  octave : Int
  deriving DecidableEq

/-- The position of a note on the page; a note without a staff is on the first. -/
def Note.place? (n : Note) : Option Place :=
  n.pitch?.map fun p => ⟨n.staff.getD 1, p.step, p.octave⟩

/-- The time at which a note starts when the cursor stands behind the element before it.  The
further notes of a chord move nothing and start where the first one did. -/
def Note.onset (n : Note) (cursor : Rat) : Rat :=
  match n.chord, n.duration with
  | true, some d => cursor - d
  | _, _ => cursor

/-- An accidental at a place and a time. -/
structure Sighting where
  place : Place
  onset : Rat
  accidental : Accidental

/-- The accidental that a note shows. -/
def Note.sighting? (n : Note) (cursor : Rat) : Option Sighting := do
  return ⟨← n.place?, n.onset cursor, ← n.accidental⟩

/-- The accidentals among the elements of a measure, in document order. -/
def sightings (cursor : Rat) : List Element → List Sighting
  | [] => []
  | e :: es =>
    (e.note?.bind (·.sighting? cursor)).toList ++ sightings (e.advance cursor) es

/-- The later of the accidentals seen so far and one more; of two at the same time the one that
comes last in the document. -/
def laterSighting (best : Option Sighting) (s : Sighting) : Option Sighting :=
  match best with
  | some b => if b.onset ≤ s.onset then some s else some b
  | none => some s

/-- The accidental in force at a place and a time: the latest one there that is not after it. -/
def carriedAccidental (seen : List Sighting) (place : Place) (onset : Rat) : Option Accidental :=
  let here := seen.filter fun s => s.place = place && s.onset ≤ onset
  (here.foldl laterSighting none).map (·.accidental)

/-- The pitches of the ties that are open, by place. -/
abbrev TieTable := Place → Option Pitch

/-- The table with the entry for one place replaced. -/
def TieTable.set (t : TieTable) (place : Place) (entry : Option Pitch) : TieTable :=
  fun p => if p = place then entry else t p

/-- What is known on the way through a part. -/
structure AlterationState where
  /-- The key signature in force. -/
  fifths : Int := 0
  /-- The ties started in this measure. -/
  current : TieTable := fun _ => none
  /-- The ties left open by the measure before. -/
  previous : TieTable := fun _ => none

namespace AlterationState

/-- The alteration of a note at a place by accidentals and key alone. -/
def alteration (s : AlterationState) (seen : List Sighting) (place : Place) (onset : Rat) : Int :=
  match carriedAccidental seen place onset with
  | some a => a.alteration
  | none => keyAlteration s.fifths place.step

/-- Takes the open tie at a place, one of this measure first. -/
def takeTie (s : AlterationState) (place : Place) : Option Pitch × AlterationState :=
  match s.current place with
  | some p => (some p, { s with current := s.current.set place none })
  | none => (s.previous place, { s with previous := s.previous.set place none })

/-- The pitch of a note that ends a tie, if one is open at its place. -/
def stopTie (s : AlterationState) (place : Place) (n : Note) (p : Pitch) :
    Pitch × AlterationState :=
  if n.ties.contains .stop then
    let (tied, s) := s.takeTie place
    (tied.getD p, s)
  else (p, s)

/-- Opens a tie at a place where a note starts one. -/
def startTie (s : AlterationState) (place : Place) (n : Note) (p : Pitch) : AlterationState :=
  if n.ties.contains .start then { s with current := s.current.set place (some p) } else s

/-- Infers the pitch of a note. -/
def note (s : AlterationState) (seen : List Sighting) (cursor : Rat) (n : Note) :
    AlterationState × Note :=
  match n.pitch?, n.place? with
  | some p, some place =>
    let inferred := { p with alter := s.alteration seen place (n.onset cursor) }
    let (sounding, s) := s.stopTie place n inferred
    (s.startTie place n sounding, { n with content := .pitch sounding })
  | _, _ => (s, n)

/-- Infers the pitch of an element and moves the cursor. -/
def element (seen : List Sighting) (s : AlterationState × Rat) (e : Element) :
    (AlterationState × Rat) × Element :=
  let (state, cursor) := s
  match e with
  | .attributes a =>
    let fifths := (a.key.map (·.fifths)).getD state.fifths
    (({ state with fifths }, cursor), e)
  | .note n =>
    let (state, altered) := state.note seen cursor n
    ((state, e.advance cursor), .note altered)
  | e => ((state, e.advance cursor), e)

/-- Infers the pitches of a measure.  Ties that the measure before did not pass on end here. -/
def measure (s : AlterationState) (m : Measure) : AlterationState × Measure :=
  let start : AlterationState := { s with previous := s.current, current := fun _ => none }
  let (s, elements) := thread (element (sightings 0 m.elements)) (start, 0) m.elements
  (s.1, { m with elements })

end AlterationState

/-- The part with the alteration of every pitched note inferred. -/
def Part.inferAlterations (p : Part) : Part :=
  { p with measures := (thread AlterationState.measure {} p.measures).2 }

namespace Machine

/-- The time at which a note starts. -/
def onset (n : Note) (cursor : Rat) : Checked Rat :=
  match n.chord, n.duration with
  | true, some d => subtract cursor d
  | _, _ => return cursor

/-- The times at which an element starts and ends. -/
def span (cursor : Rat) (e : Element) : Checked Rat := do
  if let .note n := e then discard (onset n cursor)
  move cursor e

/-- The times along the elements of a measure. -/
def times (cursor : Rat) : List Element → Checked Unit
  | [] => return ()
  | e :: es => do
    let behind ← span cursor e
    times behind es

/-- The part with every alteration inferred.  The accidentals and the notes of a measure are met at
the same times. -/
def inferAlterations (p : Part) : Checked Part := do
  forM p.measures fun m => times 0 m.elements
  return p.inferAlterations

@[simp] theorem value_onset (n : Note) (cursor : Rat) :
    (onset n cursor).value = n.onset cursor := by
  unfold onset Note.onset
  split <;> simp

@[simp] theorem value_span (cursor : Rat) (e : Element) :
    (span cursor e).value = e.advance cursor := by
  cases e <;> simp [span]

@[simp] theorem value_inferAlterations (p : Part) :
    (inferAlterations p).value = p.inferAlterations := by
  simp only [inferAlterations, Checked.value_bind, Checked.value_pure]

end Machine

end LinearScore
