import LinearScore.Terminal.Basic
import LinearScore.Text.Ratio

/-!
# Defects of a token stream

What can be wrong with the tokens of a part, from single terminals to chords and beams.

## Main definitions

* `TokenFault`: the causes, with `TokenFault.message`
* `DurationFault`: why the durations of a part cannot change their form
-/

namespace LinearScore

/-- Where a modifier stands, seen from its root. -/
inductive Side where
  | leading | trailing
  deriving DecidableEq

/-- The name of a side in messages. -/
def Side.name : Side → String
  | leading => "prefix"
  | trailing => "suffix"

/-- Why the durations of a part cannot change their form. -/
inductive DurationFault where
  /-- Attributes declare divisions that are zero or negative. -/
  | divisions (divisions measure : Int)
  /-- A duration stands before any declaration of divisions. -/
  | beforeDivisions (measure : Int)
  /-- A part in quarters declares divisions. -/
  | alreadyDivided
  /-- A duration in quarters is no whole number of ticks. -/
  | notWhole (duration : Rat) (divisions : Nat)
  deriving DecidableEq

/-- The text of a fault. -/
def DurationFault.message : DurationFault → String
  | divisions d measure =>
    "Duration conversion failed: divisions must be positive, got " ++ toString d ++
      " in measure " ++ toString measure
  | beforeDivisions measure =>
    "Duration conversion failed: duration in measure " ++ toString measure ++
      " precedes any <divisions>"
  | alreadyDivided =>
    "Duration conversion failed: fractional part should not contain <divisions>"
  | notWhole q d =>
    "Duration conversion failed: duration " ++ Text.ratio q ++
      " does not scale to whole ticks at divisions " ++ toString d

/-- What is wrong with a token stream. -/
inductive TokenFault where
  | unknown (text : String)
  | beforeFirstMeasure (count : Nat)
  | danglingTrailing (token : Terminal)
  | danglingLeading (token : Terminal)
  | unexpectedItem (token : Terminal)
  | additional (side : Side) (token root : Terminal)
  | unexpected (side : Side) (token root : Terminal)
  | secondKey
  | missingBeats
  | missingBeatType
  | skipRoot (root marker : Terminal)
  | slashWithoutGrace
  | pitchOnRest (step : Step) (octave : Nat)
  | measureRestWithoutRest
  | neitherPitchNorRest
  | tremoloWithoutMarks (kind : TremoloKind)
  | descendingChord
  | measureRestOfUnknownLength
  | chordLength (current head : Rat)
  | closedBeams (closed opened : Nat)
  | conversion (fault : DurationFault)
  deriving DecidableEq

namespace TokenFault

/-- The text of a fault. -/
def message : TokenFault → String
  | unknown text => "Token '" ++ text ++ "' is not present in the vocabulary."
  | beforeFirstMeasure count =>
    "There are " ++ toString count ++ " tokens before the first 'measure' token."
  | danglingTrailing token => "Dangling suffix token '" ++ token.text ++ "'."
  | danglingLeading token => "Dangling prefix token '" ++ token.text ++ "'."
  | unexpectedItem token => "Unexpected measure item type '" ++ token.text ++ "'."
  | additional side token root =>
    "Additional " ++ side.name ++ " token '" ++ token.text ++ "' for the '" ++ root.text ++
      "' token."
  | unexpected side token root =>
    "Unexpected " ++ side.name ++ " token '" ++ token.text ++ "' for the '" ++ root.text ++
      "' token."
  | secondKey => "Additional key signature in one <attributes> element."
  | missingBeats => "Missing beats token from time signature."
  | missingBeatType => "Missing beat type token from time signature."
  | skipRoot root marker =>
    "'" ++ root.text ++ "' cannot be the root of a " ++ marker.text ++ " element."
  | slashWithoutGrace => "Token 'grace:slash' without 'grace'."
  | pitchOnRest step octave =>
    "Unexpected pitch token '" ++ step.name ++ toString octave ++ "' on a rest."
  | measureRestWithoutRest => "Token 'rest:measure' without 'rest'."
  | neitherPitchNorRest => "Note has neither a pitch nor a rest token, assuming a rest."
  | tremoloWithoutMarks kind => "Tremolo '" ++ kind.name ++ "' lacks a marks token."
  | descendingChord => "Chord notes must have ascending pitches."
  | measureRestOfUnknownLength => "Measure rest in a measure of unknown duration."
  | chordLength current head =>
    "Chord note lasts " ++ Text.ratio current ++ ", the chord head lasts " ++ Text.ratio head ++
      "."
  | closedBeams closed opened =>
    "Closing " ++ toString closed ++ " beams but only " ++ toString opened ++ " are open."
  | conversion fault => fault.message

end TokenFault

end LinearScore
