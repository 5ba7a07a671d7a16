import LinearScore.TokenFile
import LinearScore.Layout.Systems
import LinearScore.Encoding.Part
import LinearScore.Decoding.Part

/-!
# Files of a whole score, and the way there and back

A score is written system by system, and the systems of a file are read and joined again.  The
check of a part goes both ways for each of its systems and compares what comes back with what was
there, in quarters.

## Main definitions

* `Score.encode`: the token file of a score
* `TokenFile.decode`: the part that a token file denotes
* `Part.check`, `Machine.check`: the comparison, system by system
-/

namespace LinearScore

/-- The token sequences of some systems. -/
def encodeSystems : List Part → Reported (List (List String))
  | [] => pure []
  | system :: systems => do
    let tokens ← system.encode
    let others ← encodeSystems systems
    return tokens :: others

/-- The token file of a score: all systems of all parts. -/
def Score.encode (s : Score) : Reported TokenFile := do
  let systems ← encodeSystems (s.parts.flatMap Part.systems)
  return TokenFile.ofSystems systems

/-- The measures with the first one marked as the start of a system, or as none. -/
def markSystem (starts : Bool) : List Measure → List Measure
  | [] => []
  | m :: ms => { m with newSystem := starts } :: ms

/-- The measures with the numbers from `number` on. -/
def renumber (number : Int) : List Measure → List Measure
  | [] => []
  | m :: ms => { m with number } :: renumber (number + 1) ms

namespace TokenFile

/-- The measures of some systems joined, every system but the first of the file marked. -/
def decodeSystems (quarters first : Bool) : List (List String) → Reported (List Measure)
  | [] => pure []
  | tokens :: systems => do
    let system ← decodeText quarters (String.intercalate " " tokens)
    let measures ← decodeSystems quarters false systems
    return markSystem (!first) system.measures ++ measures

/-- The part that a file denotes: its systems joined, with the measures numbered from one.  The
numbers have 32 bits.  Measures beyond the last number would all be given that one; a file with so
many of them counts as one whose numbers are not held. -/
def decode (quarters : Bool) (file : TokenFile) : Reported Part := do
  let measures ← decodeSystems quarters true file.systems
  let _ ← (Machine.integer Machine.limit32 measures.length).reported
  return { id := "P1", name := "Piano", measures := renumber 1 measures }

end TokenFile

/-- The outcome of the check of one system. -/
structure SystemCheck where
  /-- The place of the system in the part, from zero. -/
  system : Nat
  /-- The number of the first measure of the system. -/
  firstMeasure : Option Int
  /-- What comes back is what was there. -/
  agrees : Bool
  diagnostics : List Diagnostic

/-- The element is an `attributes` element that states nothing. -/
def Element.isEmptyAttributes (e : Element) : Bool := e = .attributes {}

/-- The part without `attributes` elements that state nothing. -/
def Part.dropEmptyAttributes (p : Part) : Part :=
  { p with measures := p.measures.map fun m =>
      { m with elements := m.elements.filter fun e => !e.isEmptyAttributes } }

/-- Checks one system. -/
def checkSystem (index : Nat) (system : Part) : Except Failure SystemCheck :=
  let conversion := system.toQuarters
  match conversion.outcome with
  | .error fault => .error (.duration fault)
  | .ok () =>
    let encoded := system.encode
    let decoded := decodeTexts true encoded.value
    .ok
      { system := index
        firstMeasure := system.measures.head?.map (·.number)
        agrees := conversion.part.dropEmptyAttributes.sameContent decoded.value
        diagnostics := encoded.diagnostics ++ decoded.diagnostics }

/-- Checks every system of a part.  The first system whose durations cannot be converted fails the
check. -/
def Part.check (p : Part) : Except Failure (List SystemCheck) :=
  p.systems.zipIdx.mapM fun (system, index) => checkSystem index system

namespace Machine

/-- Checks one system. -/
def checkSystem (index : Nat) (system : Part) : Checked (Except Failure SystemCheck) := do
  let encoded ← system.encode.checked
  let conversion ← toQuarters system
  match conversion.outcome with
  | .error fault => return .error (.duration fault)
  | .ok () => do
    let _ ← (decodeTexts true encoded.value).checked
    return LinearScore.checkSystem index system

/-- Checks systems, up to the first one whose durations cannot be converted. -/
def checkSystems : List (Part × Nat) → Checked (Except Failure (List SystemCheck))
  | [] => return .ok []
  | (system, index) :: rest => do
    match ← checkSystem index system with
    | .error failure => return .error failure
    | .ok check => do
      let checks ← checkSystems rest
      return checks.map (check :: ·)

/-- Checks every system of a part. -/
def check (p : Part) : Checked (Except Failure (List SystemCheck)) := checkSystems p.systems.zipIdx

@[simp] theorem value_checkSystem (index : Nat) (system : Part) :
    (checkSystem index system).value = LinearScore.checkSystem index system := by
  rw [checkSystem, Checked.value_bind, Checked.value_bind, value_toQuarters, Reported.value_checked]
  cases h : system.toQuarters.outcome <;> simp [LinearScore.checkSystem, h]

@[simp] theorem value_checkSystems (systems : List (Part × Nat)) :
    (checkSystems systems).value =
      systems.mapM fun (system, index) => LinearScore.checkSystem index system := by
  induction systems with
  | nil => rfl
  | cons pair systems ih =>
    obtain ⟨system, index⟩ := pair
    rw [checkSystems, Checked.value_bind, value_checkSystem, List.mapM_cons]
    dsimp only
    cases LinearScore.checkSystem index system with
    | error failure => rfl
    | ok check =>
      rw [Checked.value_bind, ih]
      cases systems.mapM fun (system, index) => LinearScore.checkSystem index system <;> rfl

@[simp] theorem value_check (p : Part) : (check p).value = p.check := value_checkSystems _

end Machine

end LinearScore
