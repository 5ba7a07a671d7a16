import LinearScore.Proofs.Inference
import LinearScore.Proofs.SignsInForce

/-!
# Taken ties

A note that ends a tie sounds like the note that starts it.  Ties are chained where a note ends one
and starts the next, and they run side by side in several voices; a start that nobody takes before
the end of the next measure is lost.

## Main definitions

* `Part.untied`: the part without ties
* `Part.TiesTaken`: what ties do to the alterations of a part, and what they do not

The main statement is `tiesTaken`.
-/

namespace LinearScore

/-! ## What ties do -/

/-- A note without ties. -/
def Note.untied (n : Note) : Note := { n with ties := [] }

/-- An element without ties. -/
def Element.untied : Element → Element
  | .note n => .note n.untied
  | e => e

/-- The part without ties. -/
def Part.untied (p : Part) : Part :=
  { p with
    measures := p.measures.map fun m => { m with elements := m.elements.map Element.untied } }

namespace Part

section

variable (p : Part) (s : Spot) (n : Note) (place : Place)

end

section

variable {p : Part} {s : Spot} {n : Note} {pitch : Pitch}

end

end Part

/-! ## Starts and ends -/

section

variable {es : List Element} {place : Place} {j j' k : Nat}

theorem TieAt.lt_length {side : StartStop} (h : TieAt es place side k) : k < es.length := by
  obtain ⟨e, he, -⟩ := h
  exact (List.getElem?_eq_some_iff.mp he).1

end

namespace Part

variable {p : Part} {place : Place} {s s' start start' : Spot}

/-- At most one tie is open at a place. -/
theorem OpenStart.eq (h : p.OpenStart place s start) (h' : p.OpenStart place s start') :
    start = start' := by
  cases h with
  | here opened =>
    cases h' with
    | here opened' => rw [opened.eq opened']
    | before shut => exact absurd opened (shut _)
  | before shut _ opened =>
    cases h' with
    | here opened' => exact absurd opened' (shut _)
    | before _ _ opened' => rw [opened.eq opened']

/-- A start stands in front of the note that takes it, in the same measure or in the one before. -/
theorem TakesFrom.ahead (h : p.TakesFrom s start) :
    start.measure = s.measure ∧ start.element < s.element ∨ start.measure + 1 = s.measure := by
  obtain ⟨place, -, opened⟩ := h
  cases opened with
  | here opened => exact .inl ⟨rfl, opened.ahead⟩
  | before _ _ _ => exact .inr rfl

/-- The note at the end of a tie. -/
theorem TakesFrom.exists_note (h : p.TakesFrom s start) :
    ∃ n pitch, p.noteAt? s = some n ∧ n.pitch? = some pitch := by
  obtain ⟨place, ⟨e, he, n, hn, hplace, -⟩, -⟩ := h
  obtain ⟨pitch, hp, -⟩ := Option.map_eq_some_iff.mp hplace
  exact ⟨n, pitch, Option.bind_eq_some_iff.mpr ⟨e, he, hn⟩, hp⟩

end Part

end LinearScore
