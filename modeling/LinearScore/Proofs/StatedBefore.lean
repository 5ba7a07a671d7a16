import LinearScore.Proofs.SystemDurations

/-!
# What a context holds

The context that is tracked along a part holds nothing that attributes before have not stated.  So a
measure that is restated keeps what its head states, and gains only what has been stated in front of
it.

## Main definitions

* `Attributes.StatedIn`: attributes that hold nothing but what some attributes state
* `Attributes.Completes`: attributes completed by what some attributes state
* `Measure.Reopened`: a measure opened by completed attributes

The main statement is `reopened_restateStep`.
-/

namespace LinearScore

variable {α β σ : Type}

/-- The value, if there is one, is that of a category of some attributes. -/
def StatedBy (stated : List Attributes) (category : Attributes → Option α) (value : Option α) :
    Prop :=
  ∀ x ∈ value, ∃ a ∈ stated, category a = some x

/-- A category of `b` is that of `a`, or a value that some attributes state where `a` has none. -/
def Filled (stated : List Attributes) (category : Attributes → Option α) (a b : Attributes) :
    Prop :=
  ∃ gained, StatedBy stated category gained ∧ category b = (category a).or gained

/-- The attributes of measures, in document order. -/
def attributesOf (ms : List Measure) : List Attributes :=
  (ms.flatMap (·.elements)).filterMap Element.attributes?

namespace Attributes

/-- All that the attributes hold is stated by some attributes. -/
structure StatedIn (stated : List Attributes) (c : Attributes) : Prop where
  divisions : StatedBy stated Attributes.divisions c.divisions
  key : StatedBy stated Attributes.key c.key
  time : StatedBy stated Attributes.time c.time
  staves : StatedBy stated Attributes.staves c.staves
  clefs : ∀ clef ∈ c.clefs, ∃ a ∈ stated, clef ∈ a.clefs

/-- The attributes `b` keep what `a` states, list clefs by staves, and gain nothing but categories
that `a` leaves out and clefs for staves that `a` has none for, all of them stated by some
attributes. -/
structure Completes (stated : List Attributes) (a b : Attributes) : Prop where
  divisions : Filled stated Attributes.divisions a b
  key : Filled stated Attributes.key a b
  time : Filled stated Attributes.time a b
  staves : Filled stated Attributes.staves a b
  clefs : ∃ gained : List Clef,
    (∀ clef ∈ gained, (∃ s ∈ stated, clef ∈ s.clefs) ∧ ∀ c ∈ a.clefs, c.staff ≠ clef.staff) ∧
      b.clefs = sortClefs (a.clefs ++ gained)

end Attributes

/-- The measure `m'` is `m` up to its number and the mark of a system, opened by attributes that
complete those that open `m`. -/
structure Measure.Reopened (stated : List Attributes) (m m' : Measure) : Prop where
  implicit : m'.implicit = m.implicit
  newPage : m'.newPage = m.newPage
  head : m.head.Completes stated m'.head
  elements : m'.elements = m.elements ∨
    m'.elements = .attributes m'.head :: m.body ∧ m'.head ≠ {}

/-! ## Contexts -/

theorem StatedBy.or {stated : List Attributes} {category : Attributes → Option α} {x y : Option α}
    (hx : StatedBy stated category x) (hy : StatedBy stated category y) :
    StatedBy stated category (x.or y) := forall_mem_or hx hy

namespace Attributes

variable {stated : List Attributes} {a c : Attributes}

theorem mem_foldl_putClef {clefs new : List Clef} {clef : Clef}
    (h : clef ∈ new.foldl putClef clefs) : clef ∈ clefs ∨ clef ∈ new := by
  induction new generalizing clefs with
  | nil => exact .inl h
  | cons d new ih =>
    rcases ih h with h | h
    · rcases List.mem_append.mp h with h | h
      · exact .inl (List.mem_of_mem_filter h)
      · exact .inr (List.mem_cons.mpr (.inl (List.mem_singleton.mp h)))
    · exact .inr (List.mem_cons_of_mem d h)

theorem mem_clefs_update {clef : Clef} (h : clef ∈ (c.update a).clefs) :
    clef ∈ c.clefs ∨ clef ∈ a.clefs := by
  refine (mem_foldl_putClef h).imp_left fun kept => ?_
  unfold keptClefs at kept
  split at kept
  · exact kept
  · exact List.mem_of_mem_filter kept

namespace StatedIn

theorem empty (stated : List Attributes) : StatedIn stated {} :=
  ⟨forall_mem_none, forall_mem_none, forall_mem_none, forall_mem_none, List.forall_mem_nil _⟩

theorem of_mem (h : a ∈ stated) : a.StatedIn stated :=
  ⟨fun _ hx => ⟨a, h, hx⟩, fun _ hx => ⟨a, h, hx⟩, fun _ hx => ⟨a, h, hx⟩, fun _ hx => ⟨a, h, hx⟩,
    fun _ hx => ⟨a, h, hx⟩⟩

theorem mono {stated' : List Attributes} (h : c.StatedIn stated) (sub : stated ⊆ stated') :
    c.StatedIn stated' := by
  have wider {P : Attributes → Prop} : (∃ a ∈ stated, P a) → ∃ a ∈ stated', P a :=
    fun ⟨a, mem, holds⟩ => ⟨a, sub mem, holds⟩
  exact ⟨fun x hx => wider (h.divisions x hx), fun x hx => wider (h.key x hx),
    fun x hx => wider (h.time x hx), fun x hx => wider (h.staves x hx),
    fun x hx => wider (h.clefs x hx)⟩

theorem update (hc : c.StatedIn stated) (ha : a.StatedIn stated) :
    (c.update a).StatedIn stated where
  divisions := ha.divisions.or hc.divisions
  key := ha.key.or hc.key
  time := ha.time.or hc.time
  staves := ha.staves.or hc.staves
  clefs clef mem := (mem_clefs_update mem).elim (hc.clefs clef) (ha.clefs clef)

theorem restate (hc : c.StatedIn stated) (ha : a.StatedIn stated) :
    (c.restate a).StatedIn stated where
  divisions := ha.divisions.or hc.divisions
  key := ha.key.or hc.key
  time := ha.time.or hc.time
  staves := ha.staves.or hc.staves
  clefs clef mem := by
    rcases List.mem_append.mp (List.mem_mergeSort.mp mem) with mem | mem
    · exact ha.clefs clef mem
    · exact hc.clefs clef (List.mem_of_mem_filter mem)

/-- A context only takes over what the elements state. -/
theorem contextAfter (hc : c.StatedIn stated) {es : List Element}
    (hes : es.filterMap Element.attributes? ⊆ stated) :
    (LinearScore.contextAfter c es).StatedIn stated := by
  unfold LinearScore.contextAfter
  generalize es.filterMap Element.attributes? = as at hes
  induction as generalizing c with
  | nil => exact hc
  | cons a as ih =>
    obtain ⟨here, later⟩ := List.cons_subset.mp hes
    exact ih (hc.update (of_mem here)) later

end StatedIn

/-- Attributes that are restated from a context behind them are completed by what it holds. -/
theorem completes_restate (hc : c.StatedIn stated) (a : Attributes) :
    a.Completes stated ((c.update a).restate a) := by
  have filled {γ : Type} {category : Attributes → Option γ}
      (held : StatedBy stated category (category c))
      (eq : category ((c.update a).restate a) =
        (category a).or ((category a).or (category c))) :
      Filled stated category a ((c.update a).restate a) := by
    refine ⟨category c, held, ?_⟩
    rw [eq, ← Option.or_assoc, Option.or_self]
  refine ⟨filled hc.divisions rfl, filled hc.key rfl, filled hc.time rfl, filled hc.staves rfl,
    missingClefs (c.update a).clefs a.clefs, fun clef mem => ?_, rfl⟩
  obtain ⟨mem, missing⟩ := List.mem_filter.mp mem
  have uncovered : ∀ d ∈ a.clefs, d.staff ≠ clef.staff := by simpa using missing
  refine ⟨?_, uncovered⟩
  -- a clef of the attributes themselves is not missing
  rcases mem_clefs_update mem with mem | mem
  · exact hc.clefs clef mem
  · exact absurd rfl (uncovered clef mem)

/-- Attributes that a context restates to nothing leave it with nothing. -/
theorem eq_empty_of_restate_eq_empty {context : Attributes} (h : context.restate a = {}) :
    context = {} := by
  have second {γ : Type} {new old : Option γ} (h : new.or old = none) : old = none :=
    (Option.or_eq_none_iff.mp h).2
  have clefs : context.clefs = [] := by
    have listed : a.clefs ++ missingClefs context.clefs a.clefs = [] := by
      have sorted : sortClefs (a.clefs ++ missingClefs context.clefs a.clefs) = [] :=
        congrArg Attributes.clefs h
      exact ((List.mergeSort_perm _ _).symm.trans (.of_eq sorted)).eq_nil
    obtain ⟨none, missing⟩ := List.append_eq_nil_iff.mp listed
    -- without clefs of its own there is none that is not missing
    rw [none] at missing
    exact (List.filter_true _).symm.trans missing
  obtain ⟨divisions, key, time, staves, cs⟩ := context
  rw [show divisions = none from second (congrArg Attributes.divisions h),
    show key = none from second (congrArg Attributes.key h),
    show time = none from second (congrArg Attributes.time h),
    show staves = none from second (congrArg Attributes.staves h), show cs = [] from clefs]

end Attributes

/-! ## Measures -/

/-- The head of a measure is among its attributes, or it states nothing. -/
theorem statedIn_head (m : Measure) :
    m.head.StatedIn (m.elements.filterMap Element.attributes?) := by
  rcases m.elements_eq with eq | ⟨-, none⟩
  · rw [eq]
    exact .of_mem List.mem_cons_self
  · rw [none]
    exact .empty _

theorem attributes_body_subset (m : Measure) :
    m.body.filterMap Element.attributes? ⊆ m.elements.filterMap Element.attributes? := by
  rcases m.elements_eq with eq | ⟨eq, -⟩
  · rw [eq]
    exact List.subset_cons_self _ _
  · rw [eq]
    exact List.Subset.refl _

theorem attributesOf_cons (m : Measure) (ms : List Measure) :
    attributesOf (m :: ms) = m.elements.filterMap Element.attributes? ++ attributesOf ms := by
  rw [attributesOf, List.flatMap_cons, List.filterMap_append]
  rfl

section Step

variable {stated : List Attributes} {c : Attributes}

/-- Behind a step the context holds nothing that the measure and what is in front of it have not
stated. -/
theorem statedIn_restateStep (hc : c.StatedIn stated) (m : Measure) :
    (restateStep c m).1.StatedIn (stated ++ m.elements.filterMap Element.attributes?) := by
  have before := hc.mono (List.subset_append_left stated (m.elements.filterMap Element.attributes?))
  have head := (statedIn_head m).mono (List.subset_append_right stated _)
  have restated : (restateStep c m).2.head.StatedIn
      (stated ++ m.elements.filterMap Element.attributes?) := by
    rw [head_restateStep]
    split
    · exact (before.update head).restate head
    · exact head
  rw [context_restateStep]
  exact ((before.update head).update restated).contextAfter
    (List.Subset.trans (attributes_body_subset m) (List.subset_append_right stated _))

/-- **A measure that starts a system is opened by what it states and what has been stated in front
of it.** -/
theorem reopened_restateStep (hc : c.StatedIn stated) {m : Measure} (breaks : m.breaks = true) :
    m.Reopened stated (restateStep c m).2 := by
  have frame := frame_restateStep c m
  refine ⟨(congrArg Measure.implicit frame :), (congrArg Measure.newPage frame :), ?_, ?_⟩
  · rw [head_restateStep, if_pos breaks]
    exact Attributes.completes_restate hc m.head
  · rcases restateStep_cases c m with ⟨-, eq⟩ | ⟨-, eq⟩
    · by_cases none : (c.update m.head).restate m.head = {}
      · -- nothing is known at the measure then, and so it is left as it is
        have kept : (restateStep c m).2 = m := by
          rw [restateStep_eq, Attributes.eq_empty_of_restate_eq_empty none, Attributes.isEmpty,
            decide_eq_true rfl, Bool.not_true, Bool.and_false, if_neg Bool.false_ne_true]
        exact .inl (congrArg Measure.elements kept)
      · rw [eq, Measure.elements_withHead, Measure.head_withHead]
        exact .inr ⟨rfl, none⟩
    · exact .inl (congrArg Measure.elements eq)

end Step

end LinearScore
