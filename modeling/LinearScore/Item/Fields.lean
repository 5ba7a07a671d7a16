import LinearScore.Item.Basic

/-!
# The fields of an item

Each modifier of an item goes into the field that its terminal belongs to.  A field that holds one
value keeps the first modifier offered to it and reports the others as additional; a modifier that
the item has no field for is reported as unexpected.  Leading modifiers are offered from the root
outward, so the one nearest to the root is kept.

## Main definitions

* `NoteFields`, `Item.noteFields`: the modifiers of a note or rest
* `Item.skipRatio`: the modifiers of a backup or forward
* `Item.timeFields`, `Item.clefStaff`, `Item.reportKeyModifiers`: those of the attribute items
-/

namespace LinearScore

/-- One modifier offered to the fields of an item. -/
structure Offer where
  token : Token
  side : Side
  root : Terminal

namespace Offer

/-- Reports that the field of the modifier is taken. -/
def additional (o : Offer) : Reported Unit :=
  report o.token.position (.additional o.side o.token.terminal o.root)

/-- Reports that the item has no field for the modifier. -/
def unexpected (o : Offer) : Reported Unit :=
  report o.token.position (.unexpected o.side o.token.terminal o.root)

variable {α : Type}

/-- Fills an empty field; a field that is taken stays. -/
def fill (o : Offer) (field : Option α) (value : α) : Reported (Option α) :=
  match field with
  | none => pure (some value)
  | some old => do
    o.additional
    return some old

/-- Raises a flag; one that is raised already is reported. -/
def raise (o : Offer) (flag : Bool) : Reported Bool := do
  if flag then o.additional
  return true

/-- Adds an end to a list that holds each end at most once. -/
def addEnd (o : Offer) (ends : List StartStop) (e : StartStop) : Reported (List StartStop) :=
  if ends.contains e then do
    o.additional
    return ends
  else pure (ends ++ [e])

end Offer

/-- The modifiers of a note or rest. -/
structure NoteFields where
  unprinted : Bool := false
  grace : Bool := false
  graceSlash : Bool := false
  chord : Bool := false
  /-- The position of the `rest` modifier. -/
  rest : Option Nat := none
  /-- Step, octave and position of the pitch. -/
  pitch : Option (Step × Nat × Nat) := none
  voice : Option Nat := none
  ratio : Option TupletRatio := none
  dots : Nat := 0
  accidental : Option Accidental := none
  stem : Option Stem := none
  staff : Option Nat := none
  /-- The beam marks with their positions, in the order of the stream. -/
  beams : List (BeamMark × Nat) := []
  ties : List StartStop := []
  markings : Markings := {}
  tremoloKind : Option TremoloKind := none
  tremoloMarks : Option Nat := none
  deriving DecidableEq

namespace NoteFields

/-- Offers a leading modifier to the fields of a note. -/
def addLeading (root : Terminal) (f : NoteFields) (token : Token) : Reported NoteFields := do
  let o : Offer := ⟨token, .leading, root⟩
  match token.terminal with
  | .unprinted => return { f with unprinted := ← o.raise f.unprinted }
  | .grace => return { f with grace := ← o.raise f.grace }
  | .graceSlash => return { f with graceSlash := ← o.raise f.graceSlash }
  | .chord => return { f with chord := ← o.raise f.chord }
  | .rest => return { f with rest := ← o.fill f.rest token.position }
  | .pitch step octave =>
    return { f with pitch := ← o.fill f.pitch (step, octave, token.position) }
  | .voice n => return { f with voice := ← o.fill f.voice n }
  | _ =>
    o.unexpected
    return f

/-- Offers a trailing modifier to the markings of a note, if it belongs there. -/
def addMarking (o : Offer) (m : Markings) : Terminal → Option (Reported Markings)
  | .tuplet e => some do return { m with tuplets := ← o.addEnd m.tuplets e }
  | .slur e => some (pure { m with slurs := m.slurs ++ [e] })
  | .fermata => some do return { m with fermata := ← o.raise m.fermata }
  | .arpeggiate => some do return { m with arpeggiate := ← o.raise m.arpeggiate }
  | .staccato => some do return { m with staccato := ← o.raise m.staccato }
  | .accent => some do return { m with accent := ← o.raise m.accent }
  | .strongAccent => some do return { m with strongAccent := ← o.raise m.strongAccent }
  | .tenuto => some do return { m with tenuto := ← o.raise m.tenuto }
  | .trillMark => some do return { m with trillMark := ← o.raise m.trillMark }
  | _ => none

/-- Offers a trailing modifier to the fields of a note. -/
def addTrailing (root : Terminal) (f : NoteFields) (token : Token) : Reported NoteFields := do
  let o : Offer := ⟨token, .trailing, root⟩
  match token.terminal with
  | .ratio r => return { f with ratio := ← o.fill f.ratio r }
  | .dot => return { f with dots := min countLimit (f.dots + 1) }
  | .accidental a => return { f with accidental := ← o.fill f.accidental a }
  | .stem s => return { f with stem := ← o.fill f.stem s }
  | .staff n => return { f with staff := ← o.fill f.staff n }
  | .beam b => return { f with beams := f.beams ++ [(b, token.position)] }
  | .tied e => return { f with ties := ← o.addEnd f.ties e }
  | .tremoloKind k => return { f with tremoloKind := ← o.fill f.tremoloKind k }
  | .tremoloMarks n => return { f with tremoloMarks := ← o.fill f.tremoloMarks n }
  | terminal =>
    match addMarking o f.markings terminal with
    | some markings => return { f with markings := ← markings }
    | none =>
      o.unexpected
      return f

end NoteFields

namespace Item

/-- The modifiers of a note or rest. -/
def noteFields (item : Item) : Reported NoteFields := do
  let root := item.root.terminal
  let f ← item.leading.reverse.foldlM (NoteFields.addLeading root) {}
  item.trailing.foldlM (NoteFields.addTrailing root) f

/-- Offers a leading modifier to a backup or forward, which only has its marker. -/
def addMarker (root marker : Terminal) (seen : Bool) (token : Token) : Reported Bool :=
  let o : Offer := ⟨token, .leading, root⟩
  if token.terminal = marker then o.raise seen
  else do
    o.unexpected
    return seen

/-- Offers a trailing modifier to a backup or forward, which only has a tuplet ratio. -/
def addSkipRatio (root : Terminal) (ratio : Option TupletRatio) (token : Token) :
    Reported (Option TupletRatio) :=
  let o : Offer := ⟨token, .trailing, root⟩
  match token.terminal with
  | .ratio r => o.fill ratio r
  | _ => do
    o.unexpected
    return ratio

/-- The tuplet ratio of a backup or forward with the given marker. -/
def skipRatio (item : Item) (marker : Terminal) : Reported (Option TupletRatio) := do
  let root := item.root.terminal
  let _ ← item.leading.reverse.foldlM (addMarker root marker) false
  item.trailing.foldlM (addSkipRatio root) none

/-- Reports each of the modifiers as unexpected. -/
def reportAll (root : Terminal) (side : Side) : List Token → Reported Unit
  | [] => pure ()
  | token :: tokens => do
    Offer.unexpected ⟨token, side, root⟩
    reportAll root side tokens

/-- Offers a trailing modifier to a time signature. -/
def addTimeField (root : Terminal) (fields : Option Nat × Option Nat) (token : Token) :
    Reported (Option Nat × Option Nat) := do
  let o : Offer := ⟨token, .trailing, root⟩
  match token.terminal with
  | .beats n => return (← o.fill fields.1 n, fields.2)
  | .beatType n => return (fields.1, ← o.fill fields.2 n)
  | _ =>
    o.unexpected
    return fields

/-- The beats and the beat type of a time signature. -/
def timeFields (item : Item) : Reported (Option Nat × Option Nat) := do
  let root := item.root.terminal
  reportAll root .leading item.leading
  item.trailing.foldlM (addTimeField root) (none, none)

/-- Offers a trailing modifier to a clef. -/
def addClefStaff (root : Terminal) (staff : Option Nat) (token : Token) : Reported (Option Nat) :=
  let o : Offer := ⟨token, .trailing, root⟩
  match token.terminal with
  | .staff n => o.fill staff n
  | _ => do
    o.unexpected
    return staff

/-- The staff of a clef. -/
def clefStaff (item : Item) : Reported (Option Nat) := do
  let root := item.root.terminal
  reportAll root .leading item.leading
  item.trailing.foldlM (addClefStaff root) none

/-- A key has no modifiers. -/
def reportKeyModifiers (item : Item) : Reported Unit := do
  let root := item.root.terminal
  reportAll root .leading item.leading
  reportAll root .trailing item.trailing

end Item

end LinearScore
