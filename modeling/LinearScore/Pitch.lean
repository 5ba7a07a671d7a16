import LinearScore.Checked

/-!
# Pitches, accidentals and key signatures

A pitch is a diatonic step, an octave and a chromatic alteration in semitones.  The alteration of a
note without an accidental of its own follows from the key signature, which sharpens or flattens
the steps in the order of fifths.

## Main definitions

* `Step`, `Pitch`, `Accidental`
* `Pitch.order`, `Machine.order`: the place of a pitch in the low-to-high order of staff positions
* `keyAlteration`: the alteration that a key signature gives a step
-/

namespace LinearScore

/-- A diatonic step, from C up to B. -/
inductive Step where
  | c | d | e | f | g | a | b
  deriving DecidableEq

namespace Step

/-- All steps in ascending order. -/
def all : List Step := [c, d, e, f, g, a, b]

/-- The place of a step in the octave, `0` for C. -/
def index : Step → Nat
  | c => 0 | d => 1 | e => 2 | f => 3 | g => 4 | a => 5 | b => 6

/-- The letter of a step. -/
def letter : Step → Char
  | c => 'C' | d => 'D' | e => 'E' | f => 'F' | g => 'G' | a => 'A' | b => 'B'

/-- The step with a given upper-case letter. -/
def ofLetter? (letter : Char) : Option Step := all.find? (·.letter = letter)

/-- The letter of a step as a text. -/
def name (step : Step) : String := String.singleton step.letter

end Step

/-- A pitch; an `alter` of zero is an unaltered note. -/
structure Pitch where
  step : Step
  octave : Int
  alter : Int
  deriving DecidableEq

/-- The staff position of a pitch, C of octave 0 being zero.  The alteration has no part in it. -/
def Pitch.order (p : Pitch) : Int := p.octave * 7 + p.step.index

/-- The staff position of a pitch, a number of 32 bits. -/
def Machine.order (p : Pitch) : Checked Int := do
  let octaves ← integer limit32 (p.octave * 7)
  integer limit32 (octaves + p.step.index)

@[simp] theorem Machine.value_order (p : Pitch) : (Machine.order p).value = p.order := by
  rw [Machine.order, Checked.value_bind, value_integer, value_integer, Pitch.order]

/-- The accidentals that can stand before a note. -/
inductive Accidental where
  | sharp | flat | natural | doubleSharp | flatFlat | naturalSharp | naturalFlat
  deriving DecidableEq

namespace Accidental

/-- All accidentals in the order of the vocabulary. -/
def all : List Accidental :=
  [sharp, flat, natural, doubleSharp, flatFlat, naturalSharp, naturalFlat]

/-- The name of an accidental, the same in tokens and in markup. -/
def name : Accidental → String
  | sharp => "sharp" | flat => "flat" | natural => "natural" | doubleSharp => "double-sharp"
  | flatFlat => "flat-flat" | naturalSharp => "natural-sharp" | naturalFlat => "natural-flat"

/-- The accidental with a given name. -/
def ofName? (name : String) : Option Accidental := all.find? (·.name = name)

/-- The alteration in semitones that an accidental imposes. -/
def alteration : Accidental → Int
  | sharp | naturalSharp => 1
  | flat | naturalFlat => -1
  | natural => 0
  | doubleSharp => 2
  | flatFlat => -2

end Accidental

/-- The order in which a key signature sharpens steps; it flattens them in the opposite order. -/
def sharpOrder : List Step := [.f, .c, .g, .d, .a, .e, .b]

/-- The alteration of a step under a key signature of `fifths` sharps, or flats when negative.
More than seven count as seven. -/
def keyAlteration (fifths : Int) (step : Step) : Int :=
  if 0 < fifths && (sharpOrder.take fifths.natAbs).contains step then 1
  else if fifths < 0 && (sharpOrder.reverse.take fifths.natAbs).contains step then -1
  else 0

end LinearScore
