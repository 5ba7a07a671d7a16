import LinearScore.Checked

/-!
# Note types and lengths

Lengths are exact fractions of a quarter note.  A dot adds half of what the mark before it added,
and a tuplet ratio `actual` in `normal` scales the whole.  Lengths in ticks are lengths in quarters
times the number of divisions per quarter.

## Main definitions

* `NoteType`: the fourteen graphic note types, a maxima being 32 quarters
* `noteLength`, `measureLength`: lengths in quarters
* `expectedTicks`: the tick count of a note, rounded
* `ladder`: a tick count as a sum of different note types
* `Machine.noteLength`, `Machine.measureLength`, `Machine.expectedTicks`, `Machine.ladder`: the same
  by the integers of the machine, step by step
-/

namespace LinearScore

/-- A graphic note type, from the shortest to the longest. -/
inductive NoteType where
  | d1024 | d512 | d256 | d128 | d64 | d32 | d16 | eighth | quarter | half | whole
  | breve | long | maxima
  deriving DecidableEq

namespace NoteType

/-- All note types from the shortest to the longest; each lasts twice as long as the one before. -/
def all : List NoteType :=
  [d1024, d512, d256, d128, d64, d32, d16, eighth, quarter, half, whole, breve, long, maxima]

/-- The number of doublings from the shortest note type. -/
def rank : NoteType → Nat
  | d1024 => 0 | d512 => 1 | d256 => 2 | d128 => 3 | d64 => 4 | d32 => 5 | d16 => 6
  | eighth => 7 | quarter => 8 | half => 9 | whole => 10 | breve => 11 | long => 12 | maxima => 13

/-- The name of a note type, the same in tokens and in markup. -/
def name : NoteType → String
  | d1024 => "1024th" | d512 => "512th" | d256 => "256th" | d128 => "128th" | d64 => "64th"
  | d32 => "32nd" | d16 => "16th" | eighth => "eighth" | quarter => "quarter" | half => "half"
  | whole => "whole" | breve => "breve" | long => "long" | maxima => "maxima"

/-- The note type with a given name. -/
def ofName? (name : String) : Option NoteType := all.find? (·.name = name)

/-- The length in quarters without dots: `1/256` for the shortest type, `32` for a maxima. -/
def quarters (t : NoteType) : Rat := (Nat.pow 2 t.rank : Rat) / (256 : Rat)

/-- A note type with a flag, which a beam can replace. -/
def beamable (t : NoteType) : Bool := t.rank ≤ eighth.rank

end NoteType

/-- A tuplet ratio: `actual` notes in the time of `normal`. -/
structure TupletRatio where
  actual : Nat
  normal : Nat
  deriving DecidableEq

/-- The factor by which a ratio scales a length; a ratio of nothing scales by one. -/
def TupletRatio.factor (r : TupletRatio) : Rat :=
  if 0 < r.actual then (r.normal : Rat) / (r.actual : Rat) else 1

/-- A time signature: `beats` over `beatType`. -/
structure TimeSignature where
  beats : Nat
  beatType : Nat
  deriving DecidableEq

/-- The length of a note with dots: each dot adds `step`, which halves from dot to dot. -/
def dotted (length step : Rat) : Nat → Rat
  | 0 => length
  | n + 1 => dotted (length + step) (step / 2) n

/-- The length of a note in quarters from its type, its dots and its tuplet ratio. -/
def noteLength (t : NoteType) (dots : Nat) (ratio : Option TupletRatio) : Rat :=
  dotted t.quarters (t.quarters / 2) dots * ratio.elim 1 TupletRatio.factor

/-- The length of a full measure in quarters; a beat type of zero counts as one. -/
def measureLength (time : TimeSignature) : Rat :=
  ((time.beats * 4 : Nat) : Rat) / ((max time.beatType 1 : Nat) : Rat)

/-- The nearest integer, a half going away from zero. -/
def roundAway (q : Rat) : Int :=
  if 0 ≤ q then (q + 1 / 2).floor else -(-q + 1 / 2).floor

/-- The tick count that a note lasts, rounded to the nearest integer, beside the exact value.
Divisions are often too coarse for a tuplet, and the tick counts written for it are rounded. -/
def expectedTicks (t : NoteType) (dots : Nat) (ratio : Option TupletRatio) (divisions : Int) :
    Int × Rat :=
  let exact := noteLength t dots ratio * divisions
  (roundAway exact, exact)

/-- Takes from `remainder` each of the note types, given from the longest to the shortest, that
still fits into it. -/
def ladderFrom (divisions : Int) : List NoteType → Rat → List NoteType × Rat
  | [], remainder => ([], remainder)
  | t :: ts, remainder =>
    let step := t.quarters * divisions
    if 0 < remainder && 0 < step && step ≤ remainder then
      let (types, rest) := ladderFrom divisions ts (remainder - step)
      (t :: types, rest)
    else ladderFrom divisions ts remainder

/-- A tick count as note types, each at most once and from the longest, and the ticks left over. -/
def ladder (ticks divisions : Int) : List NoteType × Rat :=
  ladderFrom divisions NoteType.all.reverse ticks

namespace Machine

/-- The length of a note with dots, whose steps double their denominators. -/
def dotted (length step : Rat) : Nat → Checked Rat
  | 0 => pure length
  | n + 1 => do
    let longer ← add length step
    let half ← fraction (step / 2)
    dotted longer half n

/-- The length of a note in quarters. -/
def noteLength (t : NoteType) (dots : Nat) (ratio : Option TupletRatio) : Checked Rat := do
  let step ← fraction (t.quarters / 2)
  let length ← dotted t.quarters step dots
  match ratio with
  | some r => if 0 < r.actual then fraction (length * r.factor) else return length
  | none => return length

/-- The length of a full measure in quarters. -/
def measureLength (time : TimeSignature) : Checked Rat := do
  let _ ← integer limit64 (time.beats * 4 : Nat)
  fraction (LinearScore.measureLength time)

/-- The tick count of a note, rounded and exact. -/
def expectedTicks (t : NoteType) (dots : Nat) (ratio : Option TupletRatio) (divisions : Int) :
    Checked (Int × Rat) := do
  let length ← noteLength t dots ratio
  let exact ← fraction (length * divisions)
  return (roundAway exact, exact)

/-- Takes the note types from `remainder`, and stops when nothing remains. -/
def ladderFrom (divisions : Int) : List NoteType → Rat → Checked (List NoteType × Rat)
  | [], remainder => return ([], remainder)
  | t :: ts, remainder =>
    if 0 < remainder then do
      let step ← fraction (t.quarters * divisions)
      if 0 < step && step ≤ remainder then do
        let less ← subtract remainder step
        let (types, rest) ← ladderFrom divisions ts less
        return (t :: types, rest)
      else ladderFrom divisions ts remainder
    else return ([], remainder)

/-- A tick count as note types, and the ticks left over. -/
def ladder (ticks divisions : Int) : Checked (List NoteType × Rat) :=
  ladderFrom divisions NoteType.all.reverse ticks

@[simp] theorem value_dotted (length step : Rat) (n : Nat) :
    (dotted length step n).value = LinearScore.dotted length step n := by
  induction n generalizing length step with
  | zero => rfl
  | succ n ih =>
    rw [dotted, Checked.value_bind, Checked.value_bind, ih, value_add, value_fraction,
      LinearScore.dotted]

@[simp] theorem value_noteLength (t : NoteType) (dots : Nat) (ratio : Option TupletRatio) :
    (noteLength t dots ratio).value = LinearScore.noteLength t dots ratio := by
  cases ratio with
  | none =>
    simp only [noteLength, Checked.value_bind, value_fraction, value_dotted, Checked.value_pure,
      LinearScore.noteLength, Option.elim_none, Rat.mul_one]
  | some r =>
    simp only [noteLength, Checked.value_bind, value_fraction, value_dotted,
      LinearScore.noteLength, Option.elim_some]
    split
    · exact value_fraction _
    · rename_i h
      rw [Checked.value_pure, TupletRatio.factor, if_neg h, Rat.mul_one]

@[simp] theorem value_measureLength (time : TimeSignature) :
    (measureLength time).value = LinearScore.measureLength time := by
  simp [measureLength]

@[simp] theorem value_expectedTicks (t : NoteType) (dots : Nat) (ratio : Option TupletRatio)
    (divisions : Int) :
    (expectedTicks t dots ratio divisions).value =
      LinearScore.expectedTicks t dots ratio divisions := by
  simp only [expectedTicks, Checked.value_bind, value_noteLength, value_fraction,
    Checked.value_pure, LinearScore.expectedTicks]

/-- Nothing more is taken when nothing remains. -/
theorem ladderFrom_of_nonpos (divisions : Int) (ts : List NoteType) {remainder : Rat}
    (h : ¬ 0 < remainder) : LinearScore.ladderFrom divisions ts remainder = ([], remainder) := by
  induction ts with
  | nil => rfl
  | cons t ts ih => simp [LinearScore.ladderFrom, h, ih]

@[simp] theorem value_ladderFrom (divisions : Int) (ts : List NoteType) (remainder : Rat) :
    (ladderFrom divisions ts remainder).value =
      LinearScore.ladderFrom divisions ts remainder := by
  induction ts generalizing remainder with
  | nil => rfl
  | cons t ts ih =>
    by_cases remains : 0 < remainder
    · rw [ladderFrom, if_pos remains, Checked.value_bind, value_fraction, LinearScore.ladderFrom]
      split <;> simp_all
    · rw [ladderFrom, if_neg remains, ladderFrom_of_nonpos _ _ remains]
      rfl

@[simp] theorem value_ladder (ticks divisions : Int) :
    (ladder ticks divisions).value = LinearScore.ladder ticks divisions :=
  value_ladderFrom ..

end Machine

end LinearScore
