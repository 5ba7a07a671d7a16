import Mathlib.Data.List.Perm.Basic
import LinearScore.Proofs.LayoutBreaks

/-!
# The clefs that a system gains

A measure that starts a system gains the clefs that it does not state itself.  A declared number of
staves clears the clefs of all staves up to it, and so no number has been declared behind a gained
clef that reaches its staff.  A clef above all numbers behind it is kept, even if its staff is one
that there is no longer.

## Main definitions

* `Clef.StatedSince`: a clef that nothing has cleared since it was stated
* `Part.attributesUpTo`: the attributes up to those that open a measure
* `Measure.gainedClefs`: the clefs that a measure has beyond its own

The main statement is `statedSince_of_gained`.
-/

namespace LinearScore

/-- A declared number of staves clears all clefs. -/
def clearsAll : ClearingRule := fun _ _ => true

/-- Some of the attributes state the clef, and nothing behind these clears it. -/
def Clef.StatedSince (clears : ClearingRule) (stated : List Attributes) (c : Clef) : Prop :=
  ∃ a later, a :: later <:+ stated ∧ c ∈ a.clefs ∧
    ∀ b ∈ later, b.staves.any (clears · c.staff) = false

/-- The number of staves that was declared last. -/
def lastStaves (stated : List Attributes) : Option Nat := (stated.filterMap (·.staves)).getLast?

/-- The attributes in front of a measure, and those that open it. -/
def Part.attributesUpTo (p : Part) (k : Nat) : List Attributes :=
  attributesOf (p.measures.take k) ++ (p.measures[k]?.bind Measure.headAttributes?).toList

/-- The clefs that open the measure `m'` beyond those that open `m`. -/
def Measure.gainedClefs (m m' : Measure) : List Clef := m'.head.clefs.diff m.head.clefs

/-! ## Clefs and the attributes behind them -/

namespace Clef.StatedSince

variable {clears : ClearingRule} {stated : List Attributes} {a : Attributes} {c : Clef}

theorem of_mem (h : c ∈ a.clefs) : c.StatedSince clears (stated ++ [a]) :=
  ⟨a, [], List.suffix_append stated [a], h, List.forall_mem_nil _⟩

theorem concat (h : c.StatedSince clears stated) (kept : a.staves.any (clears · c.staff) = false) :
    c.StatedSince clears (stated ++ [a]) := by
  obtain ⟨b, later, ⟨front, rfl⟩, mem, uncleared⟩ := h
  refine ⟨b, later ++ [a], ⟨front, by simp⟩, mem, ?_⟩
  exact List.forall_mem_append.mpr ⟨uncleared, List.forall_mem_singleton.mpr kept⟩

/-- A clef for one of the staves last declared has been stated since they were. -/
theorem all (h : c.StatedSince clearsUpTo stated) {staves : Nat}
    (last : lastStaves stated = some staves) (within : c.staff ≤ staves) :
    c.StatedSince clearsAll stated := by
  obtain ⟨a, later, ⟨front, rfl⟩, mem, uncleared⟩ := h
  refine ⟨a, later, ⟨front, rfl⟩, mem, fun b hb => ?_⟩
  -- a number declared behind the clef would be the last one, or have another one behind it
  rcases (later.filterMap (·.staves)).eq_nil_or_concat with none | ⟨declared, n, eq⟩
  · rw [List.filterMap_eq_nil_iff] at none
    rw [none b hb]
    rfl
  · rw [List.concat_eq_append] at eq
    have numbers : (front ++ a :: later).filterMap (·.staves) =
        (front ++ [a]).filterMap (·.staves) ++ declared ++ [n] := by
      rw [List.append_cons, List.filterMap_append, eq, List.append_assoc]
    rw [lastStaves, numbers, List.getLast?_concat, Option.some.injEq] at last
    obtain ⟨d, hd, declares⟩ : ∃ d ∈ later, d.staves = some n :=
      List.mem_filterMap.mp (eq ▸ List.mem_append_right declared (List.mem_singleton.mpr rfl))
    have cleared := uncleared d hd
    simp [declares, last, clearsUpTo, within] at cleared

end Clef.StatedSince

/-! ## Contexts -/

/-- The clefs of a context are stated by some attributes, and nothing has cleared them since. -/
def Attributes.Current (stated : List Attributes) (context : Attributes) : Prop :=
  ∀ c ∈ context.clefs, c.StatedSince clearsUpTo stated

namespace Attributes.Current

variable {stated : List Attributes} {context : Attributes}

theorem empty (stated : List Attributes) : Current stated {} := List.forall_mem_nil _

theorem update (h : Current stated context) (a : Attributes) :
    Current (stated ++ [a]) (context.update a) := by
  intro c mem
  rcases mem_foldl_putClef mem with mem | mem
  · have kept : c ∈ context.clefs ∧ a.staves.any (clearsUpTo · c.staff) = false := by
      revert mem
      cases a.staves with
      | none => exact fun mem => ⟨mem, rfl⟩
      | some staves => simp [keptClefs, clearsUpTo]
    exact (h c kept.1).concat kept.2
  · exact .of_mem mem

theorem contextAfter (h : Current stated context) (es : List Element) :
    Current (stated ++ es.filterMap Element.attributes?) (LinearScore.contextAfter context es) := by
  unfold LinearScore.contextAfter
  induction es.filterMap Element.attributes? generalizing stated context with
  | nil => rwa [List.append_nil]
  | cons a as ih =>
    rw [List.append_cons]
    exact ih (h.update a)

end Attributes.Current

/-- The attributes of a measure are those that open it and those of its body. -/
theorem attributes_elements (m : Measure) :
    m.elements.filterMap Element.attributes? =
      m.headAttributes?.toList ++ m.body.filterMap Element.attributes? := by
  unfold Measure.headAttributes? Measure.body
  cases m.elements with
  | nil => rfl
  | cons e es => cases e <;> rfl

section Step

variable {stated : List Attributes} {context : Attributes} (h : context.Current stated)
  (m : Measure)
include h

theorem current_update_head :
    (context.update m.head).Current (stated ++ m.headAttributes?.toList) := by
  unfold Measure.head
  cases m.headAttributes? with
  | none =>
    rw [Option.toList_none, List.append_nil]
    exact h
  | some a => exact h.update a

/-- The clefs that open a measure of a system are current: those it states itself, and those it
takes from the context behind its head. -/
theorem current_head_restateStep :
    (restateStep context m).2.head.Current (stated ++ m.headAttributes?.toList) := by
  have own : m.head.Current (stated ++ m.headAttributes?.toList) := by
    unfold Measure.head
    cases m.headAttributes? with
    | none => exact .empty _
    | some a => exact fun c mem => .of_mem mem
  rw [head_restateStep]
  split
  · intro c mem
    rcases List.mem_append.mp (List.mem_mergeSort.mp mem) with mem | mem
    · exact own c mem
    · exact current_update_head h m c (List.mem_of_mem_filter mem)
  · exact own

theorem current_restateStep :
    (restateStep context m).1.Current (stated ++ m.elements.filterMap Element.attributes?) := by
  have behind : ((context.update m.head).update (restateStep context m).2.head).Current
      (stated ++ m.headAttributes?.toList) := fun c mem =>
    (Attributes.mem_clefs_update mem).elim (current_update_head h m c)
      (current_head_restateStep h m c)
  rw [context_restateStep, attributes_elements, ← List.append_assoc]
  exact behind.contextAfter m.body

theorem current_of_gained :
    ∀ c ∈ m.gainedClefs (restateStep context m).2,
      c.StatedSince clearsUpTo (stated ++ m.headAttributes?.toList) :=
  fun c gained => current_head_restateStep h m c (List.diff_subset _ _ gained)

end Step

/-! ## Systems -/

/-- A measure gains no clefs from itself. -/
theorem gainedClefs_self (m : Measure) : m.gainedClefs m = [] := by
  unfold Measure.gainedClefs
  induction m.head.clefs with
  | nil => rfl
  | cons c clefs ih => rwa [List.diff_cons, List.erase_cons_head]

/-- **A clef that a system gains is current**: some attributes up to the start of the system state
it, and no number of staves that reaches its staff has been declared behind them.  So if its staff
is one of those last declared, it has been stated since they were. -/
theorem statedSince_of_gained {p : Part} {k : Nat} {m m' : Measure} {c : Clef}
    (hm : p.measures[k]? = some m) (hm' : (measuresOf p.pages)[k]? = some m')
    (gained : c ∈ m.gainedClefs m') :
    c.StatedSince clearsUpTo (p.attributesUpTo k) ∧
      ∀ staves ∈ lastStaves (p.attributesUpTo k), c.staff ≤ staves →
        c.StatedSince clearsAll (p.attributesUpTo k) := by
  have measures : measuresOf p.pages = p.restatedMeasures := p.flatMap_measures_systems
  rw [measures] at hm'
  have current : c.StatedSince clearsUpTo (p.attributesUpTo k) := by
    by_cases first : k = 0
    · obtain rfl := Part.eq_of_restatedMeasures_zero hm hm' first
      rw [gainedClefs_self] at gained
      cases gained
    · obtain ⟨context, known, rfl⟩ := Part.exists_restateStep_of_keeps hm hm'
        (I := fun stated context => context.Current stated)
        (fun es => (Attributes.Current.empty []).contextAfter es)
        (fun _ _ m known => current_restateStep known m) first
      rw [Part.attributesUpTo, hm]
      exact current_of_gained known m c gained
  exact ⟨current, fun staves last within => current.all last within⟩

/-- A measure that starts a system and states nothing. -/
def Measure.bareStart : Measure := { number := 3, newSystem := true }

/-- Two staves, of which one is left, and a system behind. -/
def Part.fewerStaves : Part where
  id := "P1"
  measures :=
    [{ number := 1
       elements :=
         [.attributes { staves := some 2, clefs := [⟨some 1, "G", 2⟩, ⟨some 2, "F", 4⟩] }] },
     { number := 2
       elements := [.attributes { staves := some 1, clefs := [⟨some 1, "C", 3⟩] }] },
     .bareStart]

/-- The start of that system with a clef for the staff that is left, and one for the staff that is
gone. -/
def Measure.filledStart : Measure :=
  { Measure.bareStart with
    elements :=
      [.attributes { staves := some 1, clefs := [⟨some 1, "C", 3⟩, ⟨some 2, "F", 4⟩] }] }

theorem measuresOf_fewerStaves :
    (measuresOf Part.fewerStaves.pages)[2]? = some Measure.filledStart := by
  have sorted : Attributes.sortClefs [⟨some 2, "F", 4⟩, ⟨some 1, "C", 3⟩] =
      [⟨some 1, "C", 3⟩, ⟨some 2, "F", 4⟩] := by
    simp [Attributes.sortClefs, List.mergeSort, Clef.staff]
  have measures : measuresOf Part.fewerStaves.pages = Part.fewerStaves.restatedMeasures :=
    Part.fewerStaves.flatMap_measures_systems
  rw [measures, Measure.filledStart, ← sorted]
  rfl

/-- The first of these clefs has been stated since the staves were declared. -/
theorem statedSince_remainingStaff :
    Part.fewerStaves.measures[2]? = some .bareStart ∧
      (measuresOf Part.fewerStaves.pages)[2]? = some .filledStart ∧
      ⟨some 1, "C", 3⟩ ∈ Measure.bareStart.gainedClefs .filledStart ∧
      (⟨some 1, "C", 3⟩ : Clef).StatedSince clearsUpTo (Part.fewerStaves.attributesUpTo 2) ∧
      (⟨some 1, "C", 3⟩ : Clef).StatedSince clearsAll (Part.fewerStaves.attributesUpTo 2) := by
  have hm : Part.fewerStaves.measures[2]? = some .bareStart := rfl
  have gained : ⟨some 1, "C", 3⟩ ∈ Measure.bareStart.gainedClefs .filledStart := by decide
  obtain ⟨since, all⟩ := statedSince_of_gained hm measuresOf_fewerStaves gained
  exact ⟨hm, measuresOf_fewerStaves, gained, since, all 1 rfl (by decide)⟩

/-- The second one has not: the number of staves that is declared behind it clears only the clefs
of the staves up to it. -/
theorem not_statedSince_removedStaff :
    ¬ ∀ k m m', ∀ c : Clef, Part.fewerStaves.measures[k]? = some m →
      (measuresOf Part.fewerStaves.pages)[k]? = some m' → c ∈ m.gainedClefs m' →
        c.StatedSince clearsAll (Part.fewerStaves.attributesUpTo k) := by
  intro all
  obtain ⟨a, later, suffix, mem, uncleared⟩ :=
    all 2 .bareStart .filledStart ⟨some 2, "F", 4⟩ rfl measuresOf_fewerStaves (by decide)
  have place : a :: later = Part.fewerStaves.attributesUpTo 2 ∨
      a :: later = (Part.fewerStaves.attributesUpTo 2).tail := by
    simpa [Part.fewerStaves, Measure.bareStart, Part.attributesUpTo, attributesOf,
      Measure.headAttributes?, Element.attributes?, List.suffix_cons_iff] using suffix
  rcases place with place | place
  · obtain ⟨rfl, rfl⟩ := List.cons.inj place
    exact absurd (uncleared _ (List.mem_singleton.mpr rfl)) (by decide)
  · obtain ⟨rfl, rfl⟩ := List.cons.inj place
    exact absurd mem (by decide)

end LinearScore
