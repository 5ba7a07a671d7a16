import LinearScore.Diagnostic.Token
import LinearScore.Sequence

/-!
# The two forms of durations

The durations of a part are either ticks, with divisions per quarter declared by attributes, or
fractions of a quarter, without divisions.

## Main definitions

* `Part.toQuarters`: from ticks to quarters
* `Part.toTicks`: from quarters to ticks, with the least divisions that make all durations whole
* `Machine.toQuarters`, `Machine.toTicks`: the same by the integers of the machine

A conversion that fails leaves a part behind.  Both stop at the fault, so that part may be half
converted; but `toTicks` tests for divisions first and leaves a part that declares some as it was.
-/

namespace LinearScore

/-- The element with its duration changed by `f`, if it has one. -/
def Element.mapDuration (f : Rat → Rat) : Element → Element
  | .attributes a => .attributes a
  | .note n => .note { n with duration := n.duration.map f }
  | .backup d => .backup (f d)
  | .forward d => .forward (f d)

/-- The part that a conversion leaves and the outcome of the conversion. -/
structure Conversion (α : Type) where
  part : Part
  outcome : Except DurationFault α

/-- What is known on the way through a part in ticks: the divisions in force, and the fault that
ended the conversion. -/
structure QuarterScan where
  divisions : Option Int := none
  fault : Option DurationFault := none

/-- Converts one element of a measure, unless a fault came before it. -/
def QuarterScan.element (measure : Int) (s : QuarterScan) (e : Element) : QuarterScan × Element :=
  match s.fault, e, e.duration? with
  | some _, e, _ => (s, e)
  | none, .attributes a, _ =>
    match a.divisions with
    | none => (s, .attributes a)
    | some d =>
      if 0 < d then ({ s with divisions := some d }, .attributes { a with divisions := none })
      else ({ s with fault := some (.divisions d measure) },
        .attributes { a with divisions := none })
  | none, e, none => (s, e)
  | none, e, some _ =>
    match s.divisions with
    | none => ({ s with fault := some (.beforeDivisions measure) }, e)
    | some d => (s, e.mapDuration (· / (d : Rat)))

/-- Converts the elements of one measure. -/
def QuarterScan.measure (s : QuarterScan) (m : Measure) : QuarterScan × Measure :=
  let (s, elements) := thread (QuarterScan.element m.number) s m.elements
  (s, { m with elements })

/-- Multiplies the duration of one element by `divisions`, unless a fault came before it. -/
def Element.scale (divisions : Nat) (fault : Option DurationFault) (e : Element) :
    Option DurationFault × Element :=
  match fault, e.duration? with
  | some fault, _ => (some fault, e)
  | none, none => (none, e)
  | none, some q =>
    if (q * (divisions : Rat)).den = 1 then (none, e.mapDuration (· * (divisions : Rat)))
    else (some (.notWhole q divisions), e)

/-- Multiplies the durations of one measure. -/
def Measure.scale (divisions : Nat) (fault : Option DurationFault) (m : Measure) :
    Option DurationFault × Measure :=
  let (fault, elements) := thread (Element.scale divisions) fault m.elements
  (fault, { m with elements })

namespace Part

/-- Divides every duration by the divisions in force and drops all divisions. -/
def toQuarters (p : Part) : Conversion Unit :=
  let (s, measures) := thread QuarterScan.measure {} p.measures
  ⟨{ p with measures }, match s.fault with | some fault => .error fault | none => .ok ()⟩

/-- The durations of a part in document order. -/
def durations (p : Part) : List Rat := p.elements.filterMap Element.duration?

/-- Some attributes of the part declare divisions. -/
def hasDivisions (p : Part) : Bool :=
  p.elements.any fun e => (e.attributes?.bind (·.divisions)).isSome

/-- The least number of divisions per quarter that makes every duration whole. -/
def leastDivisions (p : Part) : Nat := p.durations.foldl (fun d q => d.lcm q.den) 1

/-- The part with divisions declared at its beginning. -/
def declareDivisions (d : Int) (p : Part) : Part :=
  match p.measures with
  | [] => p
  | m :: ms =>
    { p with measures := m.withHead (fun a => { a with divisions := some d }) :: ms }

/-- Multiplies the durations by `divisions`, up to the first that does not become whole. -/
def scale (divisions : Nat) (p : Part) : Conversion Unit :=
  let (fault, measures) := thread (Measure.scale divisions) none p.measures
  ⟨{ p with measures }, match fault with | some fault => .error fault | none => .ok ()⟩

/-- Multiplies every duration by the least divisions that make all of them whole, and declares
these divisions at the beginning of the part. -/
def toTicks (p : Part) : Conversion Nat :=
  if p.hasDivisions then ⟨p, .error .alreadyDivided⟩
  else
    let d := p.leastDivisions
    let scaled := p.scale d
    match scaled.outcome with
    | .error fault => ⟨scaled.part, .error fault⟩
    | .ok () => ⟨scaled.part.declareDivisions d, .ok d⟩

end Part

namespace Machine

/-- The quotient that an element becomes, if it has a duration, some divisions are in force, and no
fault came before it. -/
def quotient? (s : QuarterScan) (e : Element) : Option Rat :=
  match s.fault, e.duration?, s.divisions with
  | none, some q, some d => some (q / (d : Rat))
  | _, _, _ => none

/-- Converts one element of a measure. -/
def quarterElement (measure : Int) (s : QuarterScan) (e : Element) :
    Checked (QuarterScan × Element) := do
  fractions (quotient? s e).toList
  return s.element measure e

/-- Converts the elements of one measure. -/
def quarterMeasure (s : QuarterScan) (m : Measure) : Checked (QuarterScan × Measure) := do
  let (s, elements) ← threadChecked (quarterElement m.number) s m.elements
  return (s, { m with elements })

/-- Divides every duration by the divisions in force and drops all divisions. -/
def toQuarters (p : Part) : Checked (Conversion Unit) := do
  let (s, measures) ← threadChecked quarterMeasure {} p.measures
  return ⟨{ p with measures }, match s.fault with | some fault => .error fault | none => .ok ()⟩

/-- The least number of divisions per quarter that makes every duration whole. -/
def leastDivisions (p : Part) : Checked Nat :=
  p.durations.foldlM (fun d q => commonMultiple d q.den) 1

/-- Multiplies every duration by the least divisions that make all of them whole. -/
def toTicks (p : Part) : Checked (Conversion Nat) := do
  if p.hasDivisions then return p.toTicks
  let d ← leastDivisions p
  fractions (p.durations.map (· * (d : Rat)))
  return p.toTicks

@[simp] theorem value_quarterElement (measure : Int) (s : QuarterScan) (e : Element) :
    (quarterElement measure s e).value = s.element measure e := by
  simp only [quarterElement, Checked.value_bind, Checked.value_pure]

@[simp] theorem value_quarterMeasure (s : QuarterScan) (m : Measure) :
    (quarterMeasure s m).value = s.measure m := by
  simp [quarterMeasure, QuarterScan.measure]

@[simp] theorem value_toQuarters (p : Part) : (toQuarters p).value = p.toQuarters := by
  simp [toQuarters, Part.toQuarters]

@[simp] theorem value_leastDivisions (p : Part) :
    (leastDivisions p).value = p.leastDivisions :=
  Checked.value_foldlM ..

@[simp] theorem value_toTicks (p : Part) : (toTicks p).value = p.toTicks := by
  unfold toTicks
  split <;> rfl

end Machine

end LinearScore
