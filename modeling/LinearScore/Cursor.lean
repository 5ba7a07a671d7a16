import LinearScore.Score

/-!
# The cursor

The elements of a measure stand at times that follow from the durations in front of them.  A note
moves the cursor by its duration, unless it is a further note of a chord.

## Main definitions

* `Element.advance`, `Machine.move`: the cursor behind an element
-/

namespace LinearScore

/-- The cursor behind an element. -/
def Element.advance (cursor : Rat) : Element → Rat
  | .note n => if n.chord then cursor else cursor + n.duration.getD 0
  | .backup d => cursor - d
  | .forward d => cursor + d
  | .attributes _ => cursor

/-- The cursor behind an element. -/
def Machine.move (cursor : Rat) : Element → Checked Rat
  | .note n =>
    match n.chord, n.duration with
    | false, some d => add cursor d
    | _, _ => return cursor
  | .backup d => subtract cursor d
  | .forward d => add cursor d
  | .attributes _ => return cursor

@[simp] theorem Machine.value_move (cursor : Rat) (e : Element) :
    (Machine.move cursor e).value = e.advance cursor := by
  cases e with
  | note n =>
    rw [Machine.move, Element.advance]
    cases n.chord <;> cases n.duration
    · exact (Rat.add_zero cursor).symm
    · exact value_add ..
    · rfl
    · rfl
  | backup d => exact value_subtract ..
  | forward d => exact value_add ..
  | attributes a => rfl

end LinearScore
