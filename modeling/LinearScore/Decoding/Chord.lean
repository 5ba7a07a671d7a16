import LinearScore.Score
import LinearScore.Sequence

/-!
# Elements in normal form

Neighbouring backups are one backup, and so are neighbouring forwards.  The notes of a chord stand
in ascending order, and the beams of a chord are on its first note.

## Main definitions

* `mergeSkips`, and `Machine.mergeSkips` by the integers of the machine
* `chordGroups`: an element with the notes that share its chord
* `orderChords`
-/

namespace LinearScore

/-- Puts an element in front of a list, joining it with a first element that moves the cursor the
same way. -/
def joinSkip : Element → List Element → List Element
  | .backup d, .backup e :: rest => .backup (d + e) :: rest
  | .forward d, .forward e :: rest => .forward (d + e) :: rest
  | e, rest => e :: rest

/-- The elements with neighbouring backups and neighbouring forwards added up. -/
def mergeSkips (elements : List Element) : List Element := elements.foldr joinSkip []

namespace Machine

/-- The sum of two elements that move the cursor the same way. -/
def sumSkips? : Element → Element → Option (Checked Element)
  | .backup d, .backup d' => some (.backup <$> add d d')
  | .forward d, .forward d' => some (.forward <$> add d d')
  | _, _ => none

/-- Puts elements behind a last one, each added to the one before it where both move the cursor the
same way. -/
def mergeBehind (last : Element) : List Element → Checked (List Element)
  | [] => return [last]
  | e :: es =>
    match sumSkips? last e with
    | some sum => do
      let last ← sum
      mergeBehind last es
    | none => do
      let merged ← mergeBehind e es
      return last :: merged

/-- The elements with neighbouring backups and neighbouring forwards added up. -/
def mergeSkips : List Element → Checked (List Element)
  | [] => return []
  | e :: es => mergeBehind e es

/-- Joining from the left is joining from the right. -/
theorem joinSkip_of_sum {last e : Element} {sum : Checked Element} (h : sumSkips? last e = some sum)
    (es : List Element) : joinSkip last (joinSkip e es) = joinSkip sum.value es := by
  match last, e with
  | .backup d, .backup d' =>
    obtain rfl : .backup <$> add d d' = sum := Option.some.inj h
    rw [Checked.value_map, value_add]
    rcases es with _ | ⟨_ | _ | _ | _, es⟩ <;> simp only [joinSkip, Rat.add_assoc]
  | .forward d, .forward d' =>
    obtain rfl : .forward <$> add d d' = sum := Option.some.inj h
    rw [Checked.value_map, value_add]
    rcases es with _ | ⟨_ | _ | _ | _, es⟩ <;> simp only [joinSkip, Rat.add_assoc]
  | .note _, _ | .attributes _, _ | .backup _, .forward _ | .backup _, .note _
  | .backup _, .attributes _ | .forward _, .backup _ | .forward _, .note _
  | .forward _, .attributes _ => exact (nomatch h)

/-- An element is not joined to what another one begins if the two have no sum. -/
theorem joinSkip_of_no_sum {last e : Element} (h : sumSkips? last e = none) (es : List Element) :
    joinSkip last (joinSkip e es) = last :: joinSkip e es := by
  match last, e with
  | .backup _, .backup _ | .forward _, .forward _ => exact (nomatch h)
  | .note _, _ | .attributes _, _ | .backup _, .note _ | .backup _, .attributes _
  | .forward _, .note _ | .forward _, .attributes _ => rfl
  | .backup _, .forward _ | .forward _, .backup _ =>
    rcases es with _ | ⟨_ | _ | _ | _, es⟩ <;> rfl

theorem value_mergeBehind (last : Element) (es : List Element) :
    (mergeBehind last es).value = LinearScore.mergeSkips (last :: es) := by
  induction es generalizing last with
  | nil => cases last <;> rfl
  | cons e es ih =>
    have merged : LinearScore.mergeSkips (last :: e :: es) =
        joinSkip last (joinSkip e (LinearScore.mergeSkips es)) := rfl
    rw [merged, mergeBehind]
    split
    next sum h => rw [Checked.value_bind, ih, joinSkip_of_sum h]; rfl
    next h => rw [Checked.value_bind, Checked.value_pure, ih, joinSkip_of_no_sum h]; rfl

@[simp] theorem value_mergeSkips (es : List Element) :
    (mergeSkips es).value = LinearScore.mergeSkips es := by
  cases es with
  | nil => rfl
  | cons e es => exact value_mergeBehind e es

end Machine

/-- The element is a further note of the chord before it. -/
def Element.inChord : Element → Bool
  | .note n => n.chord
  | _ => false

/-- The elements cut into groups: an element with all the notes that follow in its chord. -/
def chordGroups (elements : List Element) : List (List Element) :=
  cutBefore (fun e => !e.inChord) elements

/-- The order of the pitch of an element, if the element is a pitched note. -/
def Element.pitchOrder? (e : Element) : Option Int :=
  (e.note?.bind Note.pitch?).map Pitch.order

/-- The numbers never descend. -/
def ascending : List Int → Bool
  | a :: b :: rest => a ≤ b && ascending (b :: rest)
  | _ => true

/-- The beams of the first note of a group. -/
def groupBeams : List Element → List Beam
  | .note n :: _ => n.beams
  | _ => []

/-- The element as the first note of a chord with the given beams. -/
def asHead (beams : List Beam) : Element → Element
  | .note n => .note { n with chord := false, beams }
  | e => e

/-- The element as a further note of a chord. -/
def asMember : Element → Element
  | .note n => .note { n with chord := true }
  | e => e

/-- The element without beams. -/
def dropBeams : Element → Element
  | .note n => .note { n with beams := [] }
  | e => e

/-- A group with the beams of its first note taken away. -/
def withoutHeadBeams : List Element → List Element
  | e :: rest => dropBeams e :: rest
  | [] => []

/-- A group in ascending order; notes of equal order keep their places. -/
def sortGroup (group : List Element) : List Element :=
  group.mergeSort fun a b => a.pitchOrder?.getD 0 ≤ b.pitchOrder?.getD 0

/-- A chord of pitched notes in ascending order, with the beams of its old first note on its new
first note.  Any other group, and a chord in order, stays as it is. -/
def orderGroup (group : List Element) : List Element :=
  match group.mapM Element.pitchOrder? with
  | none => group
  | some orders =>
    if ascending orders then group
    else
      match sortGroup (withoutHeadBeams group) with
      | [] => []
      | e :: rest => asHead (groupBeams group) e :: rest.map asMember

/-- The elements with every chord of pitched notes in ascending order. -/
def orderChords (elements : List Element) : List Element :=
  (chordGroups elements).flatMap orderGroup

end LinearScore
