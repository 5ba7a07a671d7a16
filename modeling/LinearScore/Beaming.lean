import LinearScore.Item.Fields

/-!
# Beams

Tokens only say where beams start, stop or hook.  The strokes that pass through a note and the
numbers of all beams follow from the count of beams that are open before it.  Grace notes and
regular notes have counts of their own.

## Main definitions

* `noteBeams`, `Machine.noteBeams`: the beams of one note under a number of open beams
* `BeamState`, `BeamState.resolve`: the running counts
-/

namespace LinearScore

/-- Numbers of beams stop at the count limit. -/
def addCapped (m n : Nat) : Nat := min countLimit (m + n)

/-- The beams `low + 1` to `high` with one stroke. -/
def beamRange (low high : Nat) (stroke : BeamStroke) : List Beam :=
  (List.range' (low + 1) (high - low)).map fun number => ⟨number, stroke⟩

/-- The stroke of a hook. -/
def hookStroke? : BeamMark → Option BeamStroke
  | .forwardHook => some .forwardHook
  | .backwardHook => some .backwardHook
  | _ => none

/-- The hooks, numbered on from the highest beam. -/
def hookBeams (top : Nat) : List BeamStroke → List Beam
  | [] => []
  | hook :: hooks => ⟨addCapped top 1, hook⟩ :: hookBeams (addCapped top 1) hooks

/-- The counts of a note's beams under `opened` open beams. -/
structure BeamCounts where
  /-- The number of beams that the tokens close, before any correction. -/
  closed : Nat
  /-- The number of open beams that stay open. -/
  kept : Nat
  /-- The number of beams that start. -/
  started : Nat

/-- How many beams stop, stay and start; no more beams can stop than are open. -/
def beamCounts (opened : Nat) (marks : List BeamMark) : BeamCounts :=
  let closed := min countLimit (marks.count .stop)
  ⟨closed, opened - closed, min countLimit (marks.count .start)⟩

/-- The number of open beams after a note. -/
def BeamCounts.after (c : BeamCounts) : Nat := addCapped c.kept c.started

/-- The beams of a note in ascending order of their numbers.  Strokes pass through where beams stay
open, provided the note can carry beams at all; the highest open beams stop; new beams start above
those that stay; and hooks lie above all others. -/
def noteBeams (opened : Nat) (marks : List BeamMark) (beamable : Bool) : List Beam :=
  let c := beamCounts opened marks
  let through := if beamable then beamRange 0 c.kept .through else []
  let stops := beamRange c.kept opened .stop
  let starts := (List.range' 1 c.started).map fun i => (⟨addCapped c.kept i, .start⟩ : Beam)
  let hooks := hookBeams (max opened c.after) (marks.filterMap hookStroke?)
  (through ++ stops ++ starts ++ hooks).mergeSort fun a b => a.number ≤ b.number

/-- The beams of a note.  The number above the beams that stay open is needed for those that stop,
even where none does. -/
def Machine.noteBeams (opened : Nat) (marks : List BeamMark) (beamable : Bool) :
    Checked (List Beam) := do
  let _ ← byte ((beamCounts opened marks).kept + 1)
  return LinearScore.noteBeams opened marks beamable

@[simp] theorem Machine.value_noteBeams (opened : Nat) (marks : List BeamMark) (beamable : Bool) :
    (Machine.noteBeams opened marks beamable).value =
      LinearScore.noteBeams opened marks beamable := by
  simp only [Machine.noteBeams, Checked.value_bind, Checked.value_pure]

/-- The running count of one class of notes. -/
structure BeamCount where
  /-- The number of open beams. -/
  opened : Nat := 0
  /-- The number of beams that were open before the first note of the current chord. -/
  beforeChord : Nat := 0
  deriving DecidableEq

/-- The running counts of regular notes and grace notes. -/
structure BeamState where
  regular : BeamCount := {}
  grace : BeamCount := {}
  deriving DecidableEq

/-- What a note asks for. -/
structure BeamRequest where
  marks : List BeamMark
  grace : Bool
  chord : Bool
  /-- The note type can carry beams. -/
  beamable : Bool
  /-- The position of the root of the note. -/
  position : Nat

namespace BeamState

/-- The count of a class of notes. -/
def count (s : BeamState) (grace : Bool) : BeamCount := if grace then s.grace else s.regular

/-- The state with the count of one class replaced. -/
def setCount (s : BeamState) (grace : Bool) (c : BeamCount) : BeamState :=
  if grace then { s with grace := c } else { s with regular := c }

/-- Reports a note that closes more beams than are open. -/
def reportClosed (opened : Nat) (r : BeamRequest) : Reported Unit := do
  let closed := (beamCounts opened r.marks).closed
  if opened < closed then report r.position (.closedBeams closed opened)

/-- The beams of a note, and the state after it.  The further notes of a chord share the beams of
the first one: they carry beams only where they have marks of their own, and never change the
state. -/
def resolve (s : BeamState) (r : BeamRequest) : Reported (List Beam × BeamState) := do
  let c := s.count r.grace
  if r.chord then
    if r.marks.isEmpty then
      return ([], s)
    else
      reportClosed c.beforeChord r
      let beams ← (Machine.noteBeams c.beforeChord r.marks r.beamable).reported
      return (beams, s)
  else
    reportClosed c.opened r
    let beams ← (Machine.noteBeams c.opened r.marks r.beamable).reported
    return (beams, s.setCount r.grace ⟨(beamCounts c.opened r.marks).after, c.opened⟩)

end BeamState

end LinearScore
