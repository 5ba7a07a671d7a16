import LinearScore.Proofs.Passes

/-!
# Passes over the attributes of a part

A pass that only changes attributes, and no keys, can be taken before or behind the inference of
alterations.  One that does not change divisions either can be taken before or behind the
conversion of durations to ticks.

## Main definitions

* `Part.pass`: a step taken at each element of a part, in document order
* `onAttributes`: a step at attributes only
* `Commuting`: two steps whose passes can be exchanged

The main statements are `inferAlterations_pass` and `ticksOf_pass`.
-/

namespace LinearScore

variable {σ τ α β : Type}

/-- A step taken at each element of a measure. -/
def Measure.pass (step : σ → Element → σ × Element) (s : σ) (m : Measure) : σ × Measure :=
  let r := thread step s m.elements
  (r.1, { m with elements := r.2 })

/-- A step taken at each element of a part. -/
def Part.pass (step : σ → Element → σ × Element) (s : σ) (p : Part) : Part :=
  { p with measures := (thread (Measure.pass step) s p.measures).2 }

/-- A step at attributes only. -/
def onAttributes (step : τ → Attributes → τ × Attributes) (t : τ) : Element → τ × Element
  | .attributes a => let r := step t a; (r.1, .attributes r.2)
  | e => (t, e)

/-- The attributes among the elements of a part. -/
def Part.attributes (p : Part) : List Attributes := p.elements.filterMap Element.attributes?

/-! ## Passes -/

/-- A pass behind a change of each member on its own. -/
theorem thread_map {step : σ → α → σ × α} {f : α → α} (h : ∀ s a, step s (f a) =
    ((step s a).1, f (step s a).2)) (s : σ) (as : List α) :
    thread step s (as.map f) = ((thread step s as).1, (thread step s as).2.map f) := by
  induction as generalizing s with
  | nil => rfl
  | cons a as ih => rw [List.map_cons, thread_cons, thread_cons, h, ih, List.map_cons]

/-- A pass whose steps change nothing. -/
theorem thread_eq_self {step : σ → α → σ × α} {s : σ} {as : List α}
    (h : ∀ a ∈ as, step s a = (s, a)) : thread step s as = (s, as) := by
  induction as with
  | nil => rfl
  | cons a as ih =>
    obtain ⟨first, rest⟩ := List.forall_mem_cons.mp h
    rw [thread_cons, first, ih rest]

/-- Each member behind a pass comes from one before it, in a state that the pass comes to. -/
theorem exists_of_mem_thread {step : σ → α → σ × α} {I : σ → Prop} {as : List α}
    (h : ∀ s, ∀ a ∈ as, I s → I (step s a).1) {s : σ} (hs : I s) {b : α}
    (hb : b ∈ (thread step s as).2) : ∃ s', I s' ∧ ∃ a ∈ as, b = (step s' a).2 := by
  induction as generalizing s with
  | nil => cases hb
  | cons a as ih =>
    rw [thread_cons] at hb
    rcases List.mem_cons.mp hb with rfl | hb
    · exact ⟨s, hs, a, List.mem_cons_self, rfl⟩
    · obtain ⟨s', hs', c, hc, eq⟩ := ih (fun s c hc => h s c (List.mem_cons_of_mem _ hc))
        (h s a List.mem_cons_self hs) hb
      exact ⟨s', hs', c, List.mem_cons_of_mem _ hc, eq⟩

/-- Each member before a pass leads to one behind it. -/
theorem exists_mem_thread (step : σ → α → σ × α) (s : σ) {as : List α} {a : α} (ha : a ∈ as) :
    ∃ s', (step s' a).2 ∈ (thread step s as).2 := by
  induction as generalizing s with
  | nil => cases ha
  | cons b as ih =>
    rw [thread_cons]
    rcases List.mem_cons.mp ha with rfl | ha
    · exact ⟨s, List.mem_cons_self⟩
    · obtain ⟨s', h⟩ := ih (step s b).1 ha
      exact ⟨s', List.mem_cons_of_mem _ h⟩

/-- The elements behind a pass are those that the pass over the elements gives. -/
theorem elements_pass (step : σ → Element → σ × Element) (s : σ) (p : Part) :
    (p.pass step s).elements = (thread step s p.elements).2 := by
  have measures (s : σ) (ms : List Measure) :
      (thread (Measure.pass step) s ms).2.flatMap (·.elements) =
        (thread step s (ms.flatMap (·.elements))).2 := by
    induction ms generalizing s with
    | nil => rfl
    | cons m ms ih =>
      rw [thread_cons, List.flatMap_cons, List.flatMap_cons, thread_append, ih]
      rfl
  exact measures s p.measures

theorem pass_eq_self {step : σ → Element → σ × Element} {s : σ} {p : Part}
    (h : ∀ e ∈ p.elements, step s e = (s, e)) : p.pass step s = p := by
  have measures : thread (Measure.pass step) s p.measures = (s, p.measures) := by
    refine thread_eq_self fun m hm => ?_
    have elements : thread step s m.elements = (s, m.elements) :=
      thread_eq_self fun e he => h e (List.mem_flatMap.mpr ⟨m, hm, he⟩)
    rw [Measure.pass, elements]
  rw [Part.pass, measures]

/-- What is seen of each element is the same behind a pass whose steps keep it. -/
theorem map_elements_pass {step : σ → Element → σ × Element} {f : Element → β}
    (h : ∀ s e, f (step s e).2 = f e) (s : σ) (p : Part) :
    (p.pass step s).elements.map f = p.elements.map f := by
  rw [elements_pass]
  exact (@map_thread _ _ _ _ (fun _ => True) f (fun s e _ => ⟨trivial, h s e⟩) s trivial _).2

/-! ## Passes that can be exchanged -/

/-- Neither step minds whether the other one has been taken. -/
structure Commuting (f : σ → α → σ × α) (g : τ → α → τ × α) : Prop where
  left : ∀ s t a, (f s (g t a).2).1 = (f s a).1
  right : ∀ s t a, (g t (f s a).2).1 = (g t a).1
  both : ∀ s t a, (f s (g t a).2).2 = (g t (f s a).2).2

theorem Commuting.thread {f : σ → α → σ × α} {g : τ → α → τ × α} (h : Commuting f g) :
    Commuting (thread f) (thread g) := by
  have all (s : σ) (t : τ) (as : List α) :
      (LinearScore.thread f s (LinearScore.thread g t as).2).1 = (LinearScore.thread f s as).1 ∧
        (LinearScore.thread g t (LinearScore.thread f s as).2).1 = (LinearScore.thread g t as).1 ∧
        (LinearScore.thread f s (LinearScore.thread g t as).2).2 =
          (LinearScore.thread g t (LinearScore.thread f s as).2).2 := by
    induction as generalizing s t with
    | nil => exact ⟨rfl, rfl, rfl⟩
    | cons a as ih =>
      obtain ⟨left, right, both⟩ := ih (f s a).1 (g t a).1
      simp only [thread_cons, h.left, h.right, h.both, left, right, both, and_self]
  exact ⟨fun s t as => (all s t as).1, fun s t as => (all s t as).2.1,
    fun s t as => (all s t as).2.2⟩

section Attributes

variable {step : τ → Attributes → τ × Attributes}

/-- A step at attributes keeps what is seen of other elements. -/
theorem onAttributes_keeps {f : Element → β} (h : ∀ t a, f (.attributes (step t a).2) =
    f (.attributes a)) (t : τ) (e : Element) : f (onAttributes step t e).2 = f e := by
  cases e with
  | attributes a => exact h t a
  | note n => rfl
  | backup d => rfl
  | forward d => rfl

theorem sightings_thread (t : τ) (cursor : Rat) (es : List Element) :
    sightings cursor (thread (onAttributes step) t es).2 = sightings cursor es := by
  induction es generalizing t cursor with
  | nil => rfl
  | cons e es ih =>
    rw [thread_cons, sightings, sightings, ih]
    cases e <;> rfl

theorem commuting_element (key : ∀ t a, (step t a).2.key = a.key) (seen : List Sighting) :
    Commuting (AlterationState.element seen) (onAttributes step) := by
  have all (s : AlterationState × Rat) (t : τ) (e : Element) :
      (AlterationState.element seen s (onAttributes step t e).2).1 =
          (AlterationState.element seen s e).1 ∧
        (onAttributes step t (AlterationState.element seen s e).2).1 =
          (onAttributes step t e).1 ∧
        (AlterationState.element seen s (onAttributes step t e).2).2 =
          (onAttributes step t (AlterationState.element seen s e).2).2 := by
    cases e with
    | attributes a =>
      refine ⟨?_, rfl, rfl⟩
      show ((_, _) : AlterationState × Rat) = (_, _)
      rw [key]
    | note n => exact ⟨rfl, rfl, rfl⟩
    | backup d => exact ⟨rfl, rfl, rfl⟩
    | forward d => exact ⟨rfl, rfl, rfl⟩
  exact ⟨fun s t e => (all s t e).1, fun s t e => (all s t e).2.1, fun s t e => (all s t e).2.2⟩

theorem commuting_measure (key : ∀ t a, (step t a).2.key = a.key) :
    Commuting AlterationState.measure (Measure.pass (onAttributes step)) := by
  have elements (m : Measure) := (commuting_element key (sightings 0 m.elements)).thread
  refine ⟨fun s t m => ?_, fun s t m => (elements m).right _ t _, fun s t m => ?_⟩
  · show (thread (AlterationState.element (sightings 0 (thread _ t m.elements).2)) _ _).1.1 = _
    rw [sightings_thread]
    exact congrArg Prod.fst ((elements m).left _ t _)
  · show { m with elements := (thread (AlterationState.element
      (sightings 0 (thread _ t m.elements).2)) _ _).2 } = _
    rw [sightings_thread]
    exact congrArg (fun elements => { m with elements }) ((elements m).both _ t _)

/-- **Alterations can be inferred before or behind a pass over the attributes.** -/
theorem inferAlterations_pass (key : ∀ t a, (step t a).2.key = a.key) (t : τ) (p : Part) :
    (p.pass (onAttributes step) t).inferAlterations =
      p.inferAlterations.pass (onAttributes step) t :=
  congrArg (fun measures => { p with measures })
    ((commuting_measure key).thread.both {} t p.measures)

/-! ## Ticks -/

/-- A part without divisions is converted, -/
theorem ticksOf_undivided {p : Part} (h : p.hasDivisions = false) :
    (ticksOf p).unbounded =
      pure ((p.mapDurations (· * (p.leastDivisions : Rat))).declareDivisions p.leastDivisions) := by
  rw [unbounded_ticksOf, toTicks_of_undivided h]

/-- and one with divisions is reported and stays as it is. -/
theorem ticksOf_divided {p : Part} (h : p.hasDivisions = true) :
    (ticksOf p).unbounded =
      { value := p, diagnostics := [⟨.token (.conversion .alreadyDivided), none⟩] } := by
  rw [unbounded_ticksOf, toTicks_of_divided h]

/-- Whether a part has divisions only depends on those of its attributes. -/
theorem hasDivisions_congr {p q : Part}
    (h : (p.elements.map fun e => e.attributes?.bind (·.divisions)) =
      q.elements.map fun e => e.attributes?.bind (·.divisions)) :
    p.hasDivisions = q.hasDivisions := by
  have any (p : Part) : p.hasDivisions =
      (p.elements.map fun e => e.attributes?.bind (·.divisions)).any Option.isSome := by
    rw [List.any_map]
    rfl
  rw [any, any, h]

theorem filterMap_of_map_eq {f : α → Option β} {as bs : List α} (h : as.map f = bs.map f) :
    as.filterMap f = bs.filterMap f := by
  have id (cs : List α) : cs.filterMap f = (cs.map f).filterMap fun o => o := by
    rw [List.filterMap_map]
    rfl
  rw [id, id, h]

theorem mapDurations_pass (f : Rat → Rat) (t : τ) (p : Part) :
    (p.pass (onAttributes step) t).mapDurations f =
      (p.mapDurations f).pass (onAttributes step) t := by
  have element (t : τ) (e : Element) : onAttributes step t (e.mapDuration f) =
      ((onAttributes step t e).1, (onAttributes step t e).2.mapDuration f) := by
    cases e <;> rfl
  have measure (t : τ) (m : Measure) : Measure.pass (onAttributes step) t
      { m with elements := m.elements.map (Element.mapDuration f) } =
        ((Measure.pass (onAttributes step) t m).1,
          { (Measure.pass (onAttributes step) t m).2 with
            elements := (Measure.pass (onAttributes step) t m).2.elements.map
              (Element.mapDuration f) }) := by
    unfold Measure.pass
    rw [thread_map element]
  have measures := thread_map measure t p.measures
  exact congrArg (fun measures => { p with measures }) (congrArg Prod.snd measures).symm

/-- The step does not mind divisions and adds nothing where there are only divisions. -/
structure KeepsDivisions (step : τ → Attributes → τ × Attributes) : Prop where
  kept : ∀ t a, (step t a).2.divisions = a.divisions
  declared : ∀ t a divisions, step t { a with divisions } =
    ((step t a).1, { (step t a).2 with divisions })
  alone : ∀ t divisions, step t { divisions } = (t, { divisions })

/-- Declaring divisions in a measure changes nothing else. -/
theorem withHead_pass (keeps : KeepsDivisions step) (d : Int) (t : τ) (m : Measure) :
    Measure.pass (onAttributes step) t (m.withHead fun a => { a with divisions := some d }) =
      ((Measure.pass (onAttributes step) t m).1,
        (Measure.pass (onAttributes step) t m).2.withHead fun a =>
          { a with divisions := some d }) := by
  obtain ⟨number, implicit, newSystem, newPage, elements⟩ := m
  have fresh (es : List Element) : thread (onAttributes step) t
      (.attributes { divisions := some d } :: es) =
        ((thread (onAttributes step) t es).1,
          .attributes { divisions := some d } :: (thread (onAttributes step) t es).2) := by
    rw [thread_cons, onAttributes, keeps.alone]
  have inserted (es : List Element) := congrArg (fun r : τ × List Element =>
    (r.1, ({ number, implicit, newSystem, newPage, elements := r.2 } : Measure))) (fresh es)
  cases elements with
  | nil => exact inserted []
  | cons e es =>
    cases e with
    | attributes a =>
      have head : thread (onAttributes step) t
          (.attributes { a with divisions := some d } :: es) =
            ((thread (onAttributes step) (step t a).1 es).1,
              .attributes { (step t a).2 with divisions := some d } ::
                (thread (onAttributes step) (step t a).1 es).2) := by
        rw [thread_cons, onAttributes, keeps.declared]
      exact congrArg (fun r : τ × List Element =>
        (r.1, ({ number, implicit, newSystem, newPage, elements := r.2 } : Measure))) head
    | note n => exact inserted _
    | backup t => exact inserted _
    | forward t => exact inserted _

theorem declareDivisions_pass (keeps : KeepsDivisions step) (d : Int) (t : τ) (p : Part) :
    (p.pass (onAttributes step) t).declareDivisions d =
      (p.declareDivisions d).pass (onAttributes step) t := by
  obtain ⟨id, name, measures⟩ := p
  cases measures with
  | nil => rfl
  | cons m ms =>
    show Part.mk id name ((Measure.pass _ t m).2.withHead _ :: _) =
      Part.mk id name (thread (Measure.pass _) t (m.withHead _ :: ms)).2
    rw [thread_cons, withHead_pass keeps]
    rfl

theorem durations_pass (t : τ) (p : Part) :
    (p.pass (onAttributes step) t).durations = p.durations :=
  filterMap_of_map_eq (map_elements_pass (onAttributes_keeps fun _ _ => rfl) t p)

theorem leastDivisions_pass (t : τ) (p : Part) :
    (p.pass (onAttributes step) t).leastDivisions = p.leastDivisions :=
  congrArg (List.foldl _ 1) (durations_pass t p)

theorem hasDivisions_pass (keeps : KeepsDivisions step) (t : τ) (p : Part) :
    (p.pass (onAttributes step) t).hasDivisions = p.hasDivisions :=
  hasDivisions_congr (map_elements_pass (onAttributes_keeps keeps.kept) t p)

/-- **Durations can be converted before or behind a pass over the attributes.** -/
theorem ticksOf_pass (keeps : KeepsDivisions step) (t : τ) (p : Part) :
    (ticksOf (p.pass (onAttributes step) t)).unbounded =
      (fun q => q.pass (onAttributes step) t) <$> (ticksOf p).unbounded := by
  have divided := hasDivisions_pass keeps t p
  cases h : p.hasDivisions with
  | true =>
    rw [ticksOf_divided h, ticksOf_divided (divided.trans h)]
    rfl
  | false =>
    rw [ticksOf_undivided h, ticksOf_undivided (divided.trans h), leastDivisions_pass,
      mapDurations_pass, declareDivisions_pass keeps]
    rfl

/-- The attributes behind a pass are those that the pass over the attributes gives. -/
theorem attributes_pass (t : τ) (p : Part) :
    (p.pass (onAttributes step) t).attributes = (thread step t p.attributes).2 := by
  rw [Part.attributes, elements_pass, Part.attributes]
  induction p.elements generalizing t with
  | nil => rfl
  | cons e es ih =>
    cases e with
    | attributes a => exact congrArg (List.cons _) (ih _)
    | note n => exact ih t
    | backup d => exact ih t
    | forward d => exact ih t

end Attributes

end LinearScore
