import LinearScore.Encoding.Emission
import LinearScore.Diagnostic.Reported

/-!
# From a part to tokens

The emissions of a part become tokens, so far as their payload lies in the vocabulary.  All else is
reported with the part and the measure it was found in.

## Main definitions

* `measureEmissions`: what a measure emits, beginning with the token `measure`
* `measureArithmetic`: what is computed at a measure beside its tokens
* `Part.encodeTerminals`, `Part.encode`: the tokens of a part
-/

namespace LinearScore

/-- What the elements of a measure emit. -/
def elementEmissions (s : EncodingState) : List Element → List Emission
  | [] => []
  | e :: es => s.emissions e ++ elementEmissions (s.after e) es

/-- What a measure emits. -/
def measureEmissions (s : EncodingState) (m : Measure) : List Emission :=
  .token .measure :: elementEmissions s.startMeasure m.elements

/-- The state behind a measure. -/
def EncodingState.afterMeasure (s : EncodingState) (m : Measure) : EncodingState :=
  m.elements.foldl EncodingState.after s.startMeasure

/-- The arithmetic of the elements of a measure. -/
def elementArithmetic (s : EncodingState) : List Element → Checked Unit
  | [] => return ()
  | e :: es => do
    s.arithmetic e
    elementArithmetic (s.after e) es

/-- The arithmetic of a measure. -/
def measureArithmetic (s : EncodingState) (m : Measure) : Checked Unit :=
  elementArithmetic s.startMeasure m.elements

namespace Emission

/-- The token that is written, if the emission is one of the vocabulary. -/
def terminal? : Emission → Option Terminal
  | token t => if t.valid then some t else none
  | fault _ => none

/-- The fault that is reported, if the emission is none of the vocabulary. -/
def fault? : Emission → Option ScoreFault
  | token t => if t.valid then none else some (.outsideVocabulary t)
  | fault f => some f

end Emission

/-- The tokens of a measure, and its faults with their place. -/
def encodeMeasure (part : String) (s : EncodingState) (m : Measure) : Reported (List Terminal) :=
  let emissions := measureEmissions s m
  { value := emissions.filterMap Emission.terminal?
    diagnostics :=
      (emissions.filterMap Emission.fault?).map fun f => ⟨.score part m.number f, none⟩
    fits := (measureArithmetic s m).fits }

/-- The tokens of a list of measures. -/
def encodeMeasures (part : String) (s : EncodingState) :
    List Measure → Reported (List Terminal)
  | [] => pure []
  | m :: ms => do
    let tokens ← encodeMeasure part s m
    let others ← encodeMeasures part (s.afterMeasure m) ms
    return tokens ++ others

namespace Part

/-- The tokens of a part as terminals. -/
def encodeTerminals (p : Part) : Reported (List Terminal) := encodeMeasures p.id {} p.measures

/-- The tokens of a part as texts. -/
def encode (p : Part) : Reported (List String) := do
  let tokens ← p.encodeTerminals
  return tokens.map Terminal.text

end Part

end LinearScore
