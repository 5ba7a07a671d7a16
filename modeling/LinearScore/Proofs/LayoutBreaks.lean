import LinearScore.Proofs.StatedBefore

/-!
# A part is divided at its layout breaks

The systems of a part, page by page, are its measures once each and in order.  A system starts in
front of every measure that is marked as the first of a page or of a system, and a page in front of
every one that is marked as the first of a page, but nothing starts in front of the first measure.

## Main definitions

* `Measure.Restated`: a measure that differs from another one in nothing but the attributes that
  open it, and in these only by what has been left out
* `Part.DividedAtBreaks`: pages and systems with all that a division of a part promises

The main statement is `Part.dividedAtBreaks_pages`.

## Design notes

A division is a `RunsOf` twice over, of measures and of systems: no run is empty, and runs start
where they have to and nowhere else.  Restating keeps the marks of a measure, so it is all the same
whether the measures are cut before or behind it.
-/

namespace LinearScore

/-- The measure `m'` is `m` but for the attributes that open it, which are completed by what some
attributes state. -/
structure Measure.Restated (stated : List Attributes) (m m' : Measure) : Prop
    extends m.Reopened stated m' where
  frame : m'.frame = m.frame

/-- The measures of all systems, page by page. -/
def measuresOf (pages : List (List Part)) : List Measure := pages.flatten.flatMap (·.measures)

/-- The pages hold the part, divided at its layout breaks. -/
structure Part.DividedAtBreaks (p : Part) (pages : List (List Part)) : Prop where
  labels : ∀ system ∈ pages.flatten, system.id = p.id ∧ system.name = p.name
  length : (measuresOf pages).length = p.measures.length
  /-- The first measure, and every measure that starts no system, is as it was. -/
  kept : ∀ k m m', p.measures[k]? = some m → (measuresOf pages)[k]? = some m' →
    k = 0 ∨ m.breaks = false → m' = m
  /-- Any other measure starts a system, opened by what it states and what was stated before. -/
  restated : ∀ k m m', p.measures[k]? = some m → (measuresOf pages)[k]? = some m' →
    k ≠ 0 → m.breaks = true → m.Restated (attributesOf (p.measures.take k)) m'
  systems : RunsOf Measure.breaks (measuresOf pages) (pages.flatten.map (·.measures))
  pages : RunsOf (fun system => startsPage system.measures) pages.flatten pages

namespace Part

/-! ## Measures -/

section Measures

variable {p : Part} {k : Nat} {m m' : Measure}

theorem length_restatedMeasures (p : Part) :
    p.restatedMeasures.length = p.measures.length := by
  simpa using congrArg List.length p.map_breaks_restatedMeasures

variable (hm : p.measures[k]? = some m) (hm' : p.restatedMeasures[k]? = some m')
include hm hm'

/-- The first measure stays as it is. -/
theorem eq_of_restatedMeasures_zero (first : k = 0) : m' = m := by
  subst first
  unfold restatedMeasures at hm'
  cases measures : p.measures with
  | nil => simp [measures] at hm
  | cons first ms =>
    rw [measures] at hm hm'
    exact Option.some.inj (hm'.symm.trans hm)

/-- Every other one is restated from a context that the measures in front of it leave.  What holds
of the context behind the first measure, and behind a further one if it does in front of it, holds
of this context. -/
theorem exists_restateStep_of_keeps {I : List Attributes → Attributes → Prop}
    (start : ∀ es, I (es.filterMap Element.attributes?) (contextAfter {} es))
    (step : ∀ stated c (m : Measure), I stated c →
      I (stated ++ m.elements.filterMap Element.attributes?) (restateStep c m).1)
    (later : k ≠ 0) :
    ∃ c : Attributes, I (attributesOf (p.measures.take k)) c ∧ m' = (restateStep c m).2 := by
  have run (ms : List Measure) (stated : List Attributes) (c : Attributes) (h : I stated c) :
      I (stated ++ attributesOf ms) (thread restateStep c ms).1 := by
    induction ms generalizing stated c with
    | nil => rwa [show attributesOf [] = [] from rfl, List.append_nil]
    | cons m ms ih =>
      rw [thread_cons, attributesOf_cons, ← List.append_assoc]
      exact ih _ _ (step stated c m h)
  obtain ⟨k, rfl⟩ := Nat.exists_eq_succ_of_ne_zero later
  unfold restatedMeasures at hm'
  cases measures : p.measures with
  | nil => simp [measures] at hm
  | cons first ms =>
    rw [measures] at hm hm'
    refine ⟨(thread restateStep (contextAfter {} first.elements) (ms.take k)).1, ?_, ?_⟩
    · rw [List.take_succ_cons, attributesOf_cons]
      exact run (ms.take k) _ _ (start first.elements)
    · rw [List.getElem?_cons_succ] at hm hm'
      rw [getElem?_thread, hm] at hm'
      exact (Option.some.inj hm').symm

/-- It is restated from what is known in front of it. -/
theorem exists_restateStep (later : k ≠ 0) :
    ∃ c : Attributes, c.StatedIn (attributesOf (p.measures.take k)) ∧
      m' = (restateStep c m).2 := by
  refine exists_restateStep_of_keeps (I := fun stated c => c.StatedIn stated) hm hm' ?_ ?_ later
  · exact fun es => (Attributes.StatedIn.empty _).contextAfter (List.Subset.refl _)
  · exact fun stated c m h => statedIn_restateStep h m

theorem kept_restatedMeasures (unbroken : k = 0 ∨ m.breaks = false) : m' = m := by
  by_cases first : k = 0
  · exact eq_of_restatedMeasures_zero hm hm' first
  · obtain ⟨c, -, rfl⟩ := exists_restateStep hm hm' first
    exact restateStep_of_unbroken (unbroken.resolve_left first) c

theorem restated_restatedMeasures (later : k ≠ 0) (breaks : m.breaks = true) :
    m.Restated (attributesOf (p.measures.take k)) m' := by
  obtain ⟨c, stated, rfl⟩ := exists_restateStep hm hm' later
  exact { reopened_restateStep stated breaks with frame := frame_restateStep c m }

end Measures

/-! ## Systems and pages -/

theorem labels_pages (p : Part) :
    ∀ system ∈ p.pages.flatten, system.id = p.id ∧ system.name = p.name := by
  rw [pages_eq, ← List.map_flatten, List.forall_mem_map]
  exact fun _ _ => ⟨rfl, rfl⟩

/-- The pages are the runs of the systems. -/
theorem runsOf_pages {p : Part} (some : p.measures ≠ []) :
    RunsOf (fun system => startsPage system.measures) p.pages.flatten p.pages := by
  obtain ⟨m, ms, eq⟩ := List.exists_cons_of_ne_nil (mt p.restatedMeasures_eq_nil.mp some)
  obtain ⟨run, runs, cut⟩ := exists_cutBefore_cons Measure.breaks m ms
  have pages : p.pages = cutBefore (fun system => startsPage system.measures)
      ((cutBefore Measure.breaks p.restatedMeasures).map fun measures => { p with measures }) := by
    rw [pages_eq, pagesOf, eq, cut, if_neg (by simp), cutBefore_map]
  rw [pages, flatten_cutBefore]
  exact runsOf_cutBefore _ _

/-- **A part is divided at its layout breaks.**  A part without measures has one page with one
system, which is the part itself. -/
theorem dividedAtBreaks_pages (p : Part) :
    if p.measures = [] then p.pages = [[p]] else p.DividedAtBreaks p.pages := by
  by_cases none : p.measures = []
  · rw [if_pos none]
    obtain ⟨id, name, measures⟩ := p
    obtain rfl : measures = [] := none
    rfl
  · rw [if_neg none]
    have measures : measuresOf p.pages = p.restatedMeasures := p.flatMap_measures_systems
    have systems : p.pages.flatten.map (·.measures) =
        cutBefore Measure.breaks p.restatedMeasures := by
      have cut := p.map_systems fun ms => ms
      rwa [if_neg none, List.map_id'] at cut
    exact
      { labels := p.labels_pages
        length := measures ▸ p.length_restatedMeasures
        kept := measures ▸ fun k m m' hm hm' => kept_restatedMeasures hm hm'
        restated := measures ▸ fun k m m' hm hm' => restated_restatedMeasures hm hm'
        systems := by
          rw [measures, systems]
          exact runsOf_cutBefore _ _
        pages := runsOf_pages none }

/-- Nothing starts in front of the first measure, and a measure with both marks starts a page. -/
example : (Part.mk "P1" "" [{ number := 1, newPage := true }, { number := 2, newSystem := true },
    { number := 3, newPage := true, newSystem := true }, { number := 4 }]).pages.map
      (List.map fun system => system.measures.map (·.number)) = [[[1], [2]], [[3, 4]]] := by
  decide

end Part

end LinearScore
