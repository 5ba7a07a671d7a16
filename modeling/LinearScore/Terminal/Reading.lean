import LinearScore.Terminal.Basic
import LinearScore.Text.Numeral

/-!
# Reading terminals

A spelling is read in two steps.  `Terminal.interpret` finds the terminal that a text may stand
for and takes any integer literal as payload; `Terminal.ofText?` keeps the result only when the
payload is valid and the text is the one spelling of the terminal.  Leading zeros, a plus sign or a
lower-case clef sign are therefore outside the vocabulary.

## Main definitions

* `Terminal.ofText?`: the terminal with a given spelling
-/

namespace LinearScore.Terminal

/-- The terminals without a payload. -/
def plain : List Terminal :=
  [measure, time, measureRest, unprinted, grace, graceSlash, chord, rest, backup, forward, dot,
   fermata, arpeggiate, staccato, accent, strongAccent, tenuto, trillMark]

/-- What follows a given beginning of the text. -/
def after? (beginning : String) (text : List Char) : Option String :=
  if beginning.toList.isPrefixOf text then
    some (String.ofList (text.drop beginning.length))
  else none

/-- The two sides of the first occurrence of `in`. -/
def splitRatio : List Char → Option (List Char × List Char)
  | 'i' :: 'n' :: tail => some ([], tail)
  | c :: tail => (splitRatio tail).map fun (left, right) => (c :: left, right)
  | [] => none

/-- The first letter of a text and what follows it. -/
def uncons? : List Char → Option (Char × String)
  | [] => none
  | c :: tail => some (c, String.ofList tail)

/-- A kind of token with a payload behind a fixed beginning. -/
structure Form where
  /-- The text in front of the payload. -/
  beginning : String
  /-- The terminal with a given payload. -/
  build : String → Option Terminal

/-- A clef: a sign and a line. -/
def readClef (s : String) : Option Terminal := do
  let (sign, line) ← uncons? s.toList
  return clef (← ClefSign.ofName? (String.singleton sign)) (← Text.readByte line)

/-- The kind of a tremolo, or else its number of marks. -/
def readTremolo (s : String) : Option Terminal :=
  match TremoloKind.ofName? s with
  | some kind => some (tremoloKind kind)
  | none => (Text.readByte s).map tremoloMarks

/-- The kinds of tokens with a payload behind a fixed beginning. -/
def forms : List Form :=
  [⟨"key:fifths:", fun s => (Text.readSigned s).map key⟩,
   ⟨"beats:", fun s => (Text.readCount s).map beats⟩,
   ⟨"beat-type:", fun s => (Text.readCount s).map beatType⟩,
   ⟨"clef:", readClef⟩,
   ⟨"voice:", fun s => (Text.readByte s).map voice⟩,
   ⟨"staff:", fun s => (Text.readByte s).map staff⟩,
   ⟨"stem:", fun s => (Stem.ofName? s).map stem⟩,
   ⟨"beam:", fun s => (BeamMark.ofName? s).map beam⟩,
   ⟨"tied:", fun s => (StartStop.ofName? s).map tied⟩,
   ⟨"tuplet:", fun s => (StartStop.ofName? s).map tuplet⟩,
   ⟨"slur:", fun s => (StartStop.ofName? s).map slur⟩,
   ⟨"tremolo:", readTremolo⟩]

/-- A pitch: a step and an octave. -/
def readPitch (s : List Char) : Option Terminal := do
  let (letter, octave) ← uncons? s
  return pitch (← Step.ofLetter? letter) (← Text.readByte octave)

/-- A tuplet ratio, its sides around the first `in`. -/
def readRatio (left right : List Char) : Option Terminal := do
  let actual ← Text.readCount (String.ofList left)
  let normal ← Text.readCount (String.ofList right)
  return ratio ⟨actual, normal⟩

/-- The terminal that a text with a payload may stand for.  Each beginning decides alone. -/
def interpretForm (text : List Char) : Option Terminal :=
  match forms.findSome? fun form => (after? form.beginning text).map form.build with
  | some result => result
  | none =>
    match splitRatio text with
    | some (left, right) => readRatio left right
    | none => readPitch text

/-- The terminal that a text may stand for, whatever its payload and however it is spelled. -/
def interpret (text : String) : Option Terminal :=
  (plain.find? (·.text = text)).or <|
  ((NoteType.ofName? text).map noteType).or <|
  ((Accidental.ofName? text).map accidental).or <|
  interpretForm text.toList

/-- The terminal of the vocabulary that has the given spelling. -/
def ofText? (text : String) : Option Terminal :=
  (interpret text).filter fun t => t.valid && t.text = text

end LinearScore.Terminal
