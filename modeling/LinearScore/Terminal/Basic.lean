import LinearScore.Score

/-!
# Terminals

The linear notation has a closed vocabulary.  Each terminal has exactly one spelling and one role:
a root heads a measure item (a note type, a measure rest, a key, a time signature or a clef),
modifiers stand before or after their root, and `measure` is the only delimiter.

## Main definitions

* `Terminal`, `Terminal.text`
* `Role`, `Terminal.role`
* `Terminal.valid`: the payload lies inside the vocabulary
-/

namespace LinearScore

/-- The part a terminal plays in the grammar. -/
inductive Role where
  | delimiter | root | leading | trailing
  deriving DecidableEq

/-- The signs of the clefs in the vocabulary. -/
inductive ClefSign where
  | g | f | c
  deriving DecidableEq

namespace ClefSign

/-- All signs in the order of the vocabulary. -/
def all : List ClefSign := [g, f, c]

/-- The letter of a sign. -/
def name : ClefSign → String
  | g => "G" | f => "F" | c => "C"

/-- The sign that a letter names in either case. -/
def ofName? : String → Option ClefSign
  | "G" | "g" => some g
  | "F" | "f" => some f
  | "C" | "c" => some c
  | _ => none

/-- The lowest and the highest staff line on which a sign may sit. -/
def lines : ClefSign → Nat × Nat
  | g => (1, 2) | f => (3, 5) | c => (1, 5)

end ClefSign

/-- The beam strokes that are written; strokes that pass through are implied. -/
inductive BeamMark where
  | start | stop | forwardHook | backwardHook
  deriving DecidableEq

namespace BeamMark

/-- All marks in the order of the vocabulary. -/
def all : List BeamMark := [start, stop, forwardHook, backwardHook]

/-- The name of a mark in a token. -/
def name : BeamMark → String
  | start => "begin" | stop => "end"
  | forwardHook => "forward-hook" | backwardHook => "backward-hook"

/-- The mark with a given name in a token. -/
def ofName? (name : String) : Option BeamMark := all.find? (·.name = name)

/-- The mark that writes a stroke; a stroke that passes through has none. -/
def ofStroke? : BeamStroke → Option BeamMark
  | .start => some start | .stop => some stop
  | .forwardHook => some forwardHook | .backwardHook => some backwardHook
  | .through => none

end BeamMark

/-- A terminal of the linear notation.  The payloads are wider than the vocabulary, so that a value
taken from a score can be formed first and tested with `Terminal.valid` then. -/
inductive Terminal where
  | measure
  | key (fifths : Int)
  | time
  | clef (sign : ClefSign) (line : Nat)
  | beats (n : Nat)
  | beatType (n : Nat)
  | noteType (t : NoteType)
  | measureRest
  | unprinted
  | grace
  | graceSlash
  | chord
  | rest
  | pitch (step : Step) (octave : Nat)
  | voice (n : Nat)
  | backup
  | forward
  | ratio (r : TupletRatio)
  | dot
  | accidental (a : Accidental)
  | stem (s : Stem)
  | staff (n : Nat)
  | beam (b : BeamMark)
  | tied (e : StartStop)
  | tuplet (e : StartStop)
  | slur (e : StartStop)
  | fermata
  | arpeggiate
  | staccato
  | accent
  | strongAccent
  | tenuto
  | tremoloKind (k : TremoloKind)
  | tremoloMarks (n : Nat)
  | trillMark
  deriving DecidableEq

namespace Terminal

/-- The part that a terminal plays in the grammar. -/
def role : Terminal → Role
  | measure => .delimiter
  | key _ | time | clef _ _ | noteType _ | measureRest => .root
  | unprinted | grace | graceSlash | chord | rest | pitch _ _ | voice _ | backup | forward =>
    .leading
  | _ => .trailing

/-- The terminal is the root of an attributes item. -/
def isAttributeRoot : Terminal → Bool
  | key _ | time | clef _ _ => true
  | _ => false

/-- The terminal is the root of a note, a backup or a forward. -/
def isNoteRoot : Terminal → Bool
  | noteType _ | measureRest => true
  | _ => false

/-- The terminal belongs only to the extended flavor of the vocabulary. -/
def isExtended : Terminal → Bool
  | slur _ | fermata | arpeggiate | staccato | accent | strongAccent | tenuto
  | tremoloKind _ | tremoloMarks _ | trillMark => true
  | _ => false

/-- The denominators of time signatures in the vocabulary. -/
def beatTypes : List Nat := [1, 2, 4, 8, 16, 32, 64]

/-- The payload of the terminal lies inside the vocabulary. -/
def valid : Terminal → Bool
  | key fifths => -7 ≤ fifths && fifths ≤ 7
  | clef sign line => sign.lines.1 ≤ line && line ≤ sign.lines.2
  | beats n => 1 ≤ n && n ≤ 32
  | beatType n => beatTypes.contains n
  | pitch _ octave => octave ≤ 9
  | voice n => 1 ≤ n && n ≤ 8
  | staff n => 1 ≤ n && n ≤ 3
  | ratio r => 1 ≤ r.actual && r.actual ≤ 16 && 1 ≤ r.normal && r.normal ≤ 16
  | tremoloMarks n => 1 ≤ n && n ≤ 4
  | _ => true

/-- The spelling of a terminal. -/
def text : Terminal → String
  | measure => "measure"
  | key fifths => "key:fifths:" ++ toString fifths
  | time => "time"
  | clef sign line => "clef:" ++ sign.name ++ toString line
  | beats n => "beats:" ++ toString n
  | beatType n => "beat-type:" ++ toString n
  | noteType t => t.name
  | measureRest => "rest:measure"
  | unprinted => "print-object:no"
  | grace => "grace"
  | graceSlash => "grace:slash"
  | chord => "chord"
  | rest => "rest"
  | pitch step octave => step.name ++ toString octave
  | voice n => "voice:" ++ toString n
  | backup => "backup"
  | forward => "forward"
  | ratio r => toString r.actual ++ "in" ++ toString r.normal
  | dot => "dot"
  | accidental a => a.name
  | stem s => "stem:" ++ s.name
  | staff n => "staff:" ++ toString n
  | beam b => "beam:" ++ b.name
  | tied e => "tied:" ++ e.name
  | tuplet e => "tuplet:" ++ e.name
  | slur e => "slur:" ++ e.name
  | fermata => "fermata"
  | arpeggiate => "arpeggiate"
  | staccato => "staccato"
  | accent => "accent"
  | strongAccent => "strong-accent"
  | tenuto => "tenuto"
  | tremoloKind k => "tremolo:" ++ k.name
  | tremoloMarks n => "tremolo:" ++ toString n
  | trillMark => "trill-mark"

end Terminal

end LinearScore
