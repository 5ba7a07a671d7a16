import LinearScore.Diagnostic.Token
import LinearScore.Diagnostic.Score
import LinearScore.Diagnostic.Markup

/-!
# Diagnostics

Reading and writing never stop at a defect: they record it and go on with the nearest sensible
value.  A diagnostic is a defect together with the position of the token it was found at, if it was
found in a token stream.

## Main definitions

* `Defect`, `Defect.kind`, `Defect.message`
* `Diagnostic`, `Diagnostic.line`: one defect and its line of text
-/

namespace LinearScore

/-- The stage of the grammar that a defect belongs to. -/
inductive DiagnosticKind where
  | lexical | grammar | semantic
  deriving DecidableEq

/-- The name of a kind. -/
def DiagnosticKind.name : DiagnosticKind → String
  | lexical => "lexical"
  | grammar => "grammar"
  | semantic => "semantic"

/-- The stage of the grammar that a defect of a token stream belongs to. -/
def TokenFault.kind : TokenFault → DiagnosticKind
  | unknown _ => .lexical
  | descendingChord | measureRestOfUnknownLength | chordLength _ _ | closedBeams _ _
  | conversion _ => .semantic
  | _ => .grammar

/-- The stage of the grammar that a defect of a score belongs to. -/
def ScoreFault.kind : ScoreFault → DiagnosticKind
  | outsideVocabulary _ | clefSign _ | octave _ _ => .lexical
  | noType | staffWithoutStaves _ => .grammar
  | _ => .semantic

/-- A defect, with its place where it has one. -/
inductive Defect where
  | token (fault : TokenFault)
  | score (part : String) (measure : Int) (fault : ScoreFault)
  | markup (fault : PartFault)
  deriving DecidableEq

/-- The stage of the grammar that a defect belongs to. -/
def Defect.kind : Defect → DiagnosticKind
  | token fault => fault.kind
  | score _ _ fault => fault.kind
  | markup _ => .grammar

/-- The text of a defect. -/
def Defect.message : Defect → String
  | token fault => fault.message
  | score part measure fault =>
    "[P:" ++ part ++ " M:" ++ toString measure ++ "] " ++ fault.message
  | markup fault => fault.message

/-- A recorded defect; `position` counts the tokens of a stream from one. -/
structure Diagnostic where
  defect : Defect
  position : Option Nat
  deriving DecidableEq

namespace Diagnostic

/-- A defect found at a token. -/
def atToken (position : Nat) (fault : TokenFault) : Diagnostic := ⟨.token fault, some position⟩

/-- The kind of the defect. -/
def kind (d : Diagnostic) : DiagnosticKind := d.defect.kind

/-- The text of the defect. -/
def message (d : Diagnostic) : String := d.defect.message

/-- The line that reports a diagnostic. -/
def line (d : Diagnostic) : String :=
  match d.position with
  | some p => "[" ++ d.kind.name ++ "] token " ++ toString p ++ ": " ++ d.message
  | none => "[" ++ d.kind.name ++ "] " ++ d.message

end Diagnostic

end LinearScore
