import LinearScore.Terminal.Basic
import LinearScore.Text.Ratio

/-!
# Defects of a score to be written as tokens

What tokens cannot express, and where a part contradicts its own arithmetic.

## Main definitions

* `ScoreFault`: the causes, with `ScoreFault.message`
-/

namespace LinearScore

/-- What is wrong with a part that is written as tokens. -/
inductive ScoreFault where
  | outsideVocabulary (token : Terminal)
  | clefSign (sign : String)
  | octave (step : Step) (octave : Int)
  | noType
  | staffWithoutStaves (staff : Nat)
  | divisions (divisions : Int)
  | timeBeforeDivisions
  | noDuration
  | measureRestLength (expected : Option Rat) (actual : Rat)
  | noteLength (expected actual : Rat)
  | chordLengths
  | descendingChord
  | backupBeyondOnset (duration onset : Rat)
  | skipBeforeDivisions (marker : Terminal)
  | skipLength (marker : Terminal) (duration : Rat)
  | skipRemainder (marker : Terminal) (duration : Rat) (divisions : Int) (remainder : Rat)
  deriving DecidableEq

namespace ScoreFault

/-- The text of a fault. -/
def message : ScoreFault → String
  | outsideVocabulary token => "Token '" ++ token.text ++ "' is not in the vocabulary."
  | clefSign sign => "Clef sign '" ++ sign ++ "' is not in the vocabulary."
  | octave step n => "Invalid pitch: " ++ step.name ++ toString n
  | noType => "Note does not have <type>."
  | staffWithoutStaves staff =>
    "Note on staff " ++ toString staff ++ " in a part without <staves>."
  | divisions d => "<divisions> should be a positive number, got " ++ toString d
  | timeBeforeDivisions => "Time signature should follow <divisions>."
  | noDuration => "Note lacks duration."
  | measureRestLength expected actual =>
    "Measure rest does not have expected duration. Expected: " ++
      expected.elim "unknown" Text.ratio ++ " Actual: " ++ Text.ratio actual
  | noteLength expected actual =>
    "Note does not have expected duration. Expected: " ++ Text.ratio expected ++
      " Actual: " ++ Text.ratio actual
  | chordLengths => "Chord notes have varying duration."
  | descendingChord => "Chord notes must have ascending pitches."
  | backupBeyondOnset duration onset =>
    "Backup of " ++ Text.ratio duration ++ " exceeds the current onset " ++ Text.ratio onset ++
      "."
  | skipBeforeDivisions marker => "<" ++ marker.text ++ "> should follow <divisions>."
  | skipLength marker duration =>
    "<" ++ marker.text ++ "> duration must be a positive tick count, got " ++
      Text.ratio duration ++ "."
  | skipRemainder marker duration d remainder =>
    "Duration could not be split up to note types for <" ++ marker.text ++
      ">, most likely a tuplet forward. Duration: " ++ Text.ratio duration ++ " Divisions: " ++
      toString d ++ " Remainder: " ++ Text.ratio remainder

end ScoreFault

end LinearScore
