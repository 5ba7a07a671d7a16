/-!
# Defects of a document

What a document says that a score cannot hold.

## Main definitions

* `MeasureFault`: causes inside a measure
* `PartFault`: causes around the measures, with `PartFault.message`
-/

namespace LinearScore

/-- What a measure of a document says that a score cannot hold. -/
inductive MeasureFault where
  | backupWithoutDuration
  | forwardWithoutDuration
  | unexpectedElement (tag : String)
  | unsupportedTime
  | unexpectedAttribute (tag : String)
  | unpitched
  | voice (text : String)
  | noteType (text : String)
  | accidental (text : String)
  | stem (text : String)
  | beam (text : String)
  | neitherPitchNorRest
  | step (text : String)
  | microtone (text : String)
  deriving DecidableEq

/-- The text of a fault. -/
def MeasureFault.message : MeasureFault → String
  | backupWithoutDuration => "<backup> lacks <duration>"
  | forwardWithoutDuration => "<forward> lacks <duration>"
  | unexpectedElement tag => "unexpected <measure> element <" ++ tag ++ ">"
  | unsupportedTime => "unsupported <time> signature"
  | unexpectedAttribute tag => "unexpected <attributes> element <" ++ tag ++ ">"
  | unpitched => "<unpitched> notes are encoded as rests"
  | voice text => "unsupported voice '" ++ text ++ "'"
  | noteType text => "unknown note type '" ++ text ++ "'"
  | accidental text => "unsupported accidental type '" ++ text ++ "'"
  | stem text => "unknown stem type '" ++ text ++ "'"
  | beam text => "unknown beam value '" ++ text ++ "'"
  | neitherPitchNorRest => "<note> has neither <pitch> nor <rest>"
  | step text => "invalid pitch step '" ++ text ++ "'"
  | microtone text => "microtonal alteration '" ++ text ++ "' is not supported"

/-- What is wrong with a part of a document. -/
inductive PartFault where
  | notListed (id : String)
  | unexpectedElement (tag : String)
  | measure (number : Int) (fault : MeasureFault)
  deriving DecidableEq

/-- The text of a fault. -/
def PartFault.message : PartFault → String
  | notListed id => "part '" ++ id ++ "' is missing from <part-list>"
  | unexpectedElement tag => "unexpected <part> element <" ++ tag ++ ">"
  | measure number fault => "measure " ++ toString number ++ ": " ++ fault.message

end LinearScore
