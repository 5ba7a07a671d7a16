import LinearScore.Proofs.OpenTies

/-!
# Key signatures at the start of systems

A system states the key signature that is in force where it starts.  So of any two systems of a part
the first one holds no key signature, or the second one opens with attributes that state one; and
what they state is a key signature of the part.

## Main definitions

* `Measure.StatesKey`: a measure that starts a system states a key signature
* `Part.keys`: the key signatures of a part

The main statements are `pairwise_systems` and `forall_mem_restatedMeasures`.
-/

namespace LinearScore

variable {α : Type}

/-- The key signatures that a part states. -/
def Part.keys (p : Part) : List Int := keysOf p.elements

/-- If the measure starts a system, the attributes that open it state a key signature. -/
def Measure.StatesKey (m : Measure) : Prop := m.breaks = true → m.head.key ≠ none

/-! ## The key signature in force -/

/-- The key signature in force behind elements is the last one among them. -/
theorem key_contextAfter (c : Attributes) (es : List Element) :
    (contextAfter c es).key.map (·.fifths) = (keysOf es).getLast?.or (c.key.map (·.fifths)) := by
  induction es generalizing c with
  | nil => rfl
  | cons e es ih =>
    rw [keysOf_cons, List.getLast?_append, Option.or_assoc]
    cases e with
    | attributes a =>
      refine (ih (c.update a)).trans (congrArg _ ?_)
      show (a.key.or c.key).map _ = _
      cases hk : a.key <;> simp [Element.cues, hk]
    | note n => exact ih c
    | backup d => exact ih c
    | forward d => exact ih c

/-- Without a key signature in force at the end there has been none. -/
theorem keysOf_eq_nil_of_contextAfter {c : Attributes} {es : List Element}
    (h : (contextAfter c es).key = none) : c.key = none ∧ keysOf es = [] := by
  have last := key_contextAfter c es
  rw [h, Option.map_none, eq_comm, Option.or_eq_none_iff, Option.map_eq_none_iff,
    List.getLast?_eq_none_iff] at last
  exact ⟨last.2, last.1⟩

section Keys

variable {P : Int → Prop}

theorem forall_mem_contextAfter {c : Attributes} {es : List Element}
    (hc : ∀ k ∈ c.key, P k.fifths) (h : ∀ k ∈ keysOf es, P k) :
    ∀ k ∈ (contextAfter c es).key, P k.fifths := by
  intro k hk
  have last := key_contextAfter c es
  rw [Option.mem_def.mp hk, Option.map_some, eq_comm, Option.or_eq_some_iff] at last
  rcases last with last | ⟨-, before⟩
  · exact h k.fifths (List.mem_of_getLast? last)
  · obtain ⟨k', hk', eq⟩ := Option.map_eq_some_iff.mp before
    exact eq ▸ hc k' hk'

/-- What holds of the key signatures of a measure holds of those of its head and of its body. -/
theorem forall_mem_keysOf {m : Measure} (h : ∀ k ∈ keysOf m.elements, P k) :
    (∀ k ∈ m.head.key, P k.fifths) ∧ ∀ k ∈ keysOf m.body, P k := by
  rcases m.elements_eq with eq | ⟨eq, none⟩
  · rw [eq, keysOf_cons] at h
    obtain ⟨head, body⟩ := List.forall_mem_append.mp h
    refine ⟨fun k hk => head k.fifths ?_, body⟩
    rw [Element.cues, Option.mem_def.mp hk]
    exact List.mem_cons_self
  · rw [eq] at h
    rw [none]
    exact ⟨forall_mem_none, h⟩

theorem forall_mem_thread_restateStep {c : Attributes} (hc : ∀ k ∈ c.key, P k.fifths)
    {ms : List Measure} (h : ∀ m ∈ ms, ∀ k ∈ keysOf m.elements, P k) :
    ∀ m ∈ (thread restateStep c ms).2, ∀ k ∈ m.head.key, P k.fifths := by
  induction ms generalizing c with
  | nil => exact List.forall_mem_nil _
  | cons m ms ih =>
    obtain ⟨here, later⟩ := List.forall_mem_cons.mp h
    obtain ⟨head, body⟩ := forall_mem_keysOf here
    have known : ∀ k ∈ (c.update m.head).key, P k.fifths := forall_mem_or head hc
    have stated : ∀ k ∈ (restateStep c m).2.head.key, P k.fifths := by
      rw [head_restateStep]
      split
      · exact forall_mem_or head known
      · exact head
    rw [thread_cons]
    refine List.forall_mem_cons.mpr ⟨stated, ih ?_ later⟩
    rw [context_restateStep]
    exact forall_mem_contextAfter (forall_mem_or stated known) body

/-- The attributes that open a measure behind the restating state a key signature of the part. -/
theorem forall_mem_restatedMeasures {p : Part}
    (h : ∀ m ∈ p.measures, ∀ k ∈ keysOf m.elements, P k) :
    ∀ m ∈ p.restatedMeasures, ∀ k ∈ m.head.key, P k.fifths := by
  unfold Part.restatedMeasures
  split
  · exact List.forall_mem_nil _
  · rename_i m ms hm
    rw [hm] at h
    obtain ⟨here, later⟩ := List.forall_mem_cons.mp h
    refine List.forall_mem_cons.mpr ⟨(forall_mem_keysOf here).1,
      forall_mem_thread_restateStep ?_ later⟩
    exact forall_mem_contextAfter forall_mem_none here

end Keys

/-! ## Systems -/

/-- Behind a key signature each system states one. -/
theorem statesKey_of_mem {c : Attributes} (known : c.key ≠ none) {ms : List Measure} :
    ∀ m ∈ (thread restateStep c ms).2, m.StatesKey := by
  induction ms generalizing c with
  | nil => exact List.forall_mem_nil _
  | cons m ms ih =>
    rw [thread_cons]
    refine List.forall_mem_cons.mpr ⟨?_, ih ?_⟩
    · intro breaks none
      rw [breaks_restateStep] at breaks
      rw [head_restateStep, if_pos breaks] at none
      obtain ⟨-, behind⟩ := Option.or_eq_none_iff.mp none
      exact known (Option.or_eq_none_iff.mp behind).2
    · intro none
      exact known (Option.or_eq_none_iff.mp (keysOf_eq_nil_of_contextAfter none).1).2

/-- The measures behind elements are restated from the context that these leave. -/
theorem keysOf_eq_nil_or_statesKey {c c' : Attributes} {es : List Element}
    (context : contextAfter c es = c') (ms : List Measure) :
    ∀ m ∈ (thread restateStep c' ms).2, keysOf es = [] ∨ m.StatesKey := by
  intro m mem
  by_cases known : c'.key = none
  · exact .inl (keysOf_eq_nil_of_contextAfter (context ▸ known)).2
  · exact .inr (statesKey_of_mem known m mem)

theorem pairwise_thread_restateStep (c : Attributes) (ms : List Measure) :
    (thread restateStep c ms).2.Pairwise fun m m' => keysOf m.elements = [] ∨ m'.StatesKey := by
  induction ms generalizing c with
  | nil => exact .nil
  | cons m ms ih =>
    rw [thread_cons]
    exact .cons (keysOf_eq_nil_or_statesKey rfl ms) (ih _)

/-- A measure in front of a system holds no key signature, or the system states one. -/
theorem pairwise_restatedMeasures (p : Part) :
    p.restatedMeasures.Pairwise fun m m' => keysOf m.elements = [] ∨ m'.StatesKey := by
  unfold Part.restatedMeasures
  split
  · exact .nil
  · exact .cons (keysOf_eq_nil_or_statesKey rfl _) (pairwise_thread_restateStep _ _)

/-- What holds of any two members of a list holds of the members of each run of a cut and the member
that a later run starts with. -/
theorem pairwise_cutBefore {starts : α → Bool} {R : α → α → Prop} {as : List α}
    (h : as.Pairwise R) : (cutBefore starts as).Pairwise fun run run' =>
      ∃ b bs, run' = b :: bs ∧ starts b = true ∧ ∀ a ∈ run, R a b := by
  induction as with
  | nil => exact .nil
  | cons a as ih =>
    obtain ⟨first, rest⟩ := List.pairwise_cons.mp h
    cases as with
    | nil => exact List.pairwise_singleton _ _
    | cons b bs =>
      obtain ⟨run, runs, eq⟩ := exists_cutBefore_cons starts b bs
      have later := ih rest
      -- the members that the later runs start with stand behind `a`
      have behind : ∀ run' ∈ runs, ∀ c cs, run' = c :: cs → R a c := by
        rintro run' mem c cs rfl
        refine first c ?_
        rw [← flatten_cutBefore starts (b :: bs), eq]
        exact List.mem_flatten.mpr ⟨_, List.mem_cons_of_mem _ mem, List.mem_cons_self⟩
      rw [cutBefore_cons_cons, eq]
      rw [eq, List.pairwise_cons] at later
      split
      · rename_i begins
        refine .cons (fun run' mem => ?_) (.cons later.1 later.2)
        rcases List.mem_cons.mp mem with rfl | mem
        · exact ⟨b, run, rfl, begins, List.forall_mem_singleton.mpr (first b List.mem_cons_self)⟩
        · obtain ⟨c, cs, eq, begins, -⟩ := later.1 run' mem
          exact ⟨c, cs, eq, begins, List.forall_mem_singleton.mpr (behind run' mem c cs eq)⟩
      · refine .cons (fun run' mem => ?_) later.2
        obtain ⟨c, cs, eq, begins, all⟩ := later.1 run' mem
        exact ⟨c, cs, eq, begins, List.forall_mem_cons.mpr ⟨behind run' mem c cs eq, all⟩⟩

/-- Of two systems the first one holds no key signature, or the second one states one. -/
theorem pairwise_systems (p : Part) :
    p.systems.Pairwise fun system system' => (∀ m ∈ system.measures, keysOf m.elements = []) ∨
      ∃ m ms, system'.measures = m :: ms ∧ m.head.key ≠ none := by
  have cut : (p.systems.map (·.measures)).Pairwise fun run run' =>
      (∀ m ∈ run, keysOf m.elements = []) ∨ ∃ m ms, run' = m :: ms ∧ m.head.key ≠ none := by
    rw [p.map_systems (fun ms => ms)]
    split
    · exact List.pairwise_singleton _ _
    · rw [List.map_id']
      refine (@pairwise_cutBefore _ Measure.breaks _ _ (pairwise_restatedMeasures p)).imp ?_
      rintro run run' ⟨b, bs, eq, begins, all⟩
      by_cases stated : b.head.key = none
      · exact .inl fun a mem => (all a mem).resolve_right fun states => states begins stated
      · exact .inr ⟨b, bs, eq, stated⟩
  exact List.pairwise_map.mp cut

end LinearScore
