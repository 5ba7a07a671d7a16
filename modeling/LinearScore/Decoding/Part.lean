import LinearScore.Decoding.Element
import LinearScore.Decoding.Chord
import LinearScore.Alteration
import LinearScore.Duration.Form

/-!
# From tokens to a part

The token stream may be anything, for instance the guess of a recogniser, so decoding stops at no
defect: each is reported and the nearest sensible part is built.  It does stop at a length, a time
or a beam that the integers of the machine do not hold.

## Main definitions

* `decodeTokens`, `decodeTexts`, `decodeText`: the part that a token stream denotes
* `Part.declareStaves`: the number of staves follows from the numbers of the clefs
-/

namespace LinearScore

/-- The elements of a list of items.  Attribute items in a row add to one `attributes` element, of
which `run` is what has been stated so far. -/
def decodeItems (s : DecodingState) (run : Option Attributes) :
    List Item → Reported (List Element × DecodingState)
  | [] => pure ((run.map Element.attributes).toList, s)
  | item :: items =>
    if item.root.terminal.isAttributeRoot then do
      let (a, s) ← s.attributes (run.getD {}) item
      decodeItems s (some a) items
    else do
      let (element, s) ← s.element item
      let (elements, s) ← decodeItems s none items
      return ((run.map Element.attributes).toList ++ element.toList ++ elements, s)

/-- The measure with a given number and tokens.  The numbers have 32 bits.  Measures beyond the last
number would all be given that one; a stream with so many of them counts as one whose numbers are
not held. -/
def decodeMeasure (s : DecodingState) (number : Int) (tokens : List Token) :
    Reported (Measure × DecodingState) := do
  let number ← (Machine.integer Machine.limit32 number).reported
  let items ← Item.ofTokens tokens
  let (elements, s) ← decodeItems { s with sticky := {} } none items
  let merged ← (Machine.mergeSkips elements).reported
  return ({ number, elements := orderChords merged }, s)

theorem value_decodeMeasure (s : DecodingState) (number : Int) (tokens : List Token) :
    (decodeMeasure s number tokens).value =
      let r := (decodeItems { s with sticky := {} } none (Item.ofTokens tokens).value).value
      ({ number, elements := orderChords (mergeSkips r.1) }, r.2) := by
  simp only [decodeMeasure, Reported.value_bind, Reported.value_pure, Checked.value_reported,
    Machine.value_integer, Machine.value_mergeSkips]

theorem diagnostics_decodeMeasure (s : DecodingState) (number : Int) (tokens : List Token) :
    (decodeMeasure s number tokens).diagnostics = (Item.ofTokens tokens).diagnostics ++
      (decodeItems { s with sticky := {} } none (Item.ofTokens tokens).value).diagnostics := by
  simp only [decodeMeasure, Reported.diagnostics_bind, Reported.diagnostics_pure,
    Checked.diagnostics_reported, List.nil_append, List.append_nil]

/-- The measures of clusters of tokens, numbered from `number` on. -/
def decodeMeasures (s : DecodingState) (number : Int) :
    List (List Token) → Reported (List Measure)
  | [] => pure []
  | cluster :: clusters => do
    let (measure, s) ← decodeMeasure s number cluster
    let measures ← decodeMeasures s (number + 1) clusters
    return measure :: measures

theorem value_decodeMeasures_cons (s : DecodingState) (number : Int) (cluster : List Token)
    (clusters : List (List Token)) :
    (decodeMeasures s number (cluster :: clusters)).value =
      let r := (decodeItems { s with sticky := {} } none (Item.ofTokens cluster).value).value
      { number, elements := orderChords (mergeSkips r.1) } ::
        (decodeMeasures r.2 (number + 1) clusters).value := by
  have measure := value_decodeMeasure s number cluster
  show (decodeMeasure s number cluster).value.1 ::
    (decodeMeasures (decodeMeasure s number cluster).value.2 (number + 1) clusters).value = _
  rw [measure]

/-- Some clef of the attributes has a number. -/
def Attributes.numbersClefs (a : Attributes) : Bool := a.clefs.any (·.number.isSome)

/-- Declares a number of staves in attributes that number their clefs, unless `declared`. -/
def declareStavesStep (staves : Nat) (declared : Bool) : Element → Bool × Element
  | .attributes a =>
    if !declared && a.numbersClefs then (true, .attributes { a with staves := some staves })
    else (declared, .attributes a)
  | e => (declared, e)

namespace Part

/-- The numbers of all clefs of a part. -/
def clefNumbers (p : Part) : List Nat :=
  (p.elements.filterMap Element.attributes?).flatMap fun a => a.clefs.filterMap (·.number)

/-- Declares the highest number of a clef as the number of staves, in the first attributes that
number their clefs. -/
def declareStaves (p : Part) : Part :=
  match p.clefNumbers.max? with
  | none => p
  | some staves =>
    let measure (declared : Bool) (m : Measure) : Bool × Measure :=
      let (declared, elements) := thread (declareStavesStep staves) declared m.elements
      (declared, { m with elements })
    { p with measures := (thread measure false p.measures).2 }

end Part

/-- The part that tokens denote, with durations in quarters. -/
def decodeQuarters (tokens : List Token) : Reported Part := do
  let clusters ← measureClusters tokens
  let measures ← decodeMeasures {} 1 clusters
  (Machine.inferAlterations (Part.mk "P1" "" measures).declareStaves).reported

/-- The part with durations in ticks; a part that cannot be converted is reported. -/
def ticksOf (p : Part) : Reported Part := do
  let conversion ← (Machine.toTicks p).reported
  match conversion.outcome with
  | .ok _ => pure conversion.part
  | .error fault => do
    reportDefect (.token (.conversion fault))
    return conversion.part

theorem unbounded_ticksOf (p : Part) :
    (ticksOf p).unbounded =
      match p.toTicks.outcome with
      | .ok _ => pure p.toTicks.part
      | .error fault =>
        { value := p.toTicks.part, diagnostics := [⟨.token (.conversion fault), none⟩] } := by
  unfold ticksOf
  rw [Reported.unbounded_bind, Checked.unbounded_reported, pure_bind, Machine.value_toTicks]
  split
  · rfl
  · rfl

theorem value_ticksOf (p : Part) : (ticksOf p).value = p.toTicks.part := by
  rw [← Reported.value_unbounded, unbounded_ticksOf]
  split
  · rfl
  · rfl

/-- The part that tokens denote, in quarters if wanted and in ticks otherwise. -/
def decodeTokens (quarters : Bool) (tokens : List Token) : Reported Part := do
  let p ← decodeQuarters tokens
  if quarters then return p else ticksOf p

/-- The part that a list of texts denotes. -/
def decodeTexts (quarters : Bool) (texts : List String) : Reported Part := do
  let tokens ← Token.ofTexts texts
  decodeTokens quarters tokens

/-- The part that a text denotes, its tokens separated by white space. -/
def decodeText (quarters : Bool) (text : String) : Reported Part :=
  decodeTexts quarters (Text.words text)

end LinearScore
