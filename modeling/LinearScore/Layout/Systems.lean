import LinearScore.Score
import LinearScore.Sequence

/-!
# Pages and systems

A part is cut at its layout breaks into pages and systems.  Each system has to be readable on its
own, so the first measure of every system after the first states the divisions, key, time
signature, staves and clefs in force there, unless it states them itself.

## Main definitions

* `Attributes.update`: the context after some attributes
* `Attributes.restate`: attributes completed from a context
* `Part.pages`, `Part.systems`
-/

namespace LinearScore

namespace Attributes

/-- The clefs with one clef put in, in the place of a clef for the same staff. -/
def putClef (clefs : List Clef) (c : Clef) : List Clef :=
  clefs.filter (fun d => d.staff ≠ c.staff) ++ [c]

/-- The clefs in force that a number of staves leaves: it clears the clefs of these staves. -/
def keptClefs (clefs : List Clef) : Option Nat → List Clef
  | none => clefs
  | some staves => clefs.filter fun c => staves < c.staff

/-- The context after some attributes.  A context is what attributes state: at most one clef for
each staff, and of everything else the last value. -/
def update (context a : Attributes) : Attributes where
  divisions := a.divisions.or context.divisions
  key := a.key.or context.key
  time := a.time.or context.time
  staves := a.staves.or context.staves
  clefs := a.clefs.foldl putClef (keptClefs context.clefs a.staves)

/-- The clefs of a context for staves that some clefs do not cover. -/
def missingClefs (context clefs : List Clef) : List Clef :=
  context.filter fun c => !clefs.any fun d => d.staff = c.staff

/-- Clefs in ascending order of their staves; clefs for one staff keep their places. -/
def sortClefs (clefs : List Clef) : List Clef :=
  clefs.mergeSort fun c d => c.staff ≤ d.staff

/-- The attributes completed by what they leave out and the context has. -/
def restate (context a : Attributes) : Attributes where
  divisions := a.divisions.or context.divisions
  key := a.key.or context.key
  time := a.time.or context.time
  staves := a.staves.or context.staves
  clefs := sortClefs (a.clefs ++ missingClefs context.clefs a.clefs)

end Attributes

/-- The context after the elements of a measure. -/
def contextAfter (context : Attributes) (elements : List Element) : Attributes :=
  (elements.filterMap Element.attributes?).foldl Attributes.update context

namespace Measure

/-- A measure that starts a page or a system. -/
def breaks (m : Measure) : Bool := m.newPage || m.newSystem

end Measure

/-- The measure behind a first one, restated if it starts a system, and the context after it. -/
def restateStep (context : Attributes) (m : Measure) : Attributes × Measure :=
  let context := context.update (m.headAttributes?.getD {})
  let m := if m.breaks && !context.isEmpty then m.withHead context.restate else m
  (contextAfter context m.elements, m)

namespace Part

/-- The measures of a part with the context restated at the start of every system after the
first. -/
def restatedMeasures (p : Part) : List Measure :=
  match p.measures with
  | [] => []
  | m :: ms => m :: (thread restateStep (contextAfter {} m.elements) ms).2

/-- A page that starts with a given system. -/
def startsPage (system : List Measure) : Bool := system.head?.elim false (·.newPage)

/-- The systems of a part, page by page.  A part without measures has one empty system. -/
def pages (p : Part) : List (List Part) :=
  let systems := cutBefore Measure.breaks p.restatedMeasures
  let pages := if systems.isEmpty then [[[]]] else cutBefore startsPage systems
  pages.map fun page => page.map fun measures => { p with measures }

/-- The systems of a part in order. -/
def systems (p : Part) : List Part := p.pages.flatten

end Part

end LinearScore
