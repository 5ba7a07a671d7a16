import Mathlib.Data.List.Forall2
import Mathlib.Data.List.SplitLengths
import LinearScore.Layout.Systems

/-!
# Passes over the systems of a part

A pass over each system on its own is one pass over the measures of all systems that starts afresh
wherever a system does.  So what a pass sees in the systems is compared with what it sees in the
part measure by measure: in step with the restating of what is in force.

## Main definitions

* `RunsOf`: the runs of a list, which `cutBefore` finds
* `restarting`: a pass that starts afresh at some members
* `Measure.head`, `Measure.body`: the attributes that open a measure, and the elements behind them
* `Measure.frame`: all of a measure but its elements

The main statements are `map_thread_cutBefore` for cuts and `forall₂_systems` for parts.
-/

namespace LinearScore

variable {σ τ α β γ : Type}

/-! ## Cuts -/

/-- A pass that starts afresh at each member that satisfies `starts`. -/
def restarting (starts : α → Bool) (f : σ → α → σ × β) (start s : σ) (a : α) : σ × β :=
  f (if starts a then start else s) a

/-- The first run of a cut starts with the first member. -/
theorem exists_cutBefore_cons (starts : α → Bool) (a : α) (as : List α) :
    ∃ run runs, cutBefore starts (a :: as) = (a :: run) :: runs := by
  show ∃ run runs, joinRun starts a (cutBefore starts as) = _
  unfold joinRun
  split
  · split
    · exact ⟨_, _, rfl⟩
    · exact ⟨_, _, rfl⟩
  · exact ⟨_, _, rfl⟩

theorem cutBefore_cons_cons (starts : α → Bool) (a b : α) (as : List α) :
    cutBefore starts (a :: b :: as) =
      if starts b then [a] :: cutBefore starts (b :: as)
      else (cutBefore starts (b :: as)).modifyHead (a :: ·) := by
  obtain ⟨run, runs, eq⟩ := exists_cutBefore_cons starts b as
  show joinRun starts a (cutBefore starts (b :: as)) = _
  rw [eq]
  rfl

/-- A cut only looks at the members at which a run has to start. -/
theorem cutBefore_map (starts : β → Bool) (f : α → β) (as : List α) :
    cutBefore starts (as.map f) = (cutBefore (fun a => starts (f a)) as).map (List.map f) := by
  induction as with
  | nil => rfl
  | cons a as ih =>
    cases as with
    | nil => rfl
    | cons b bs =>
      obtain ⟨run, runs, eq⟩ := exists_cutBefore_cons (fun a => starts (f a)) b bs
      rw [List.map_cons, List.map_cons, cutBefore_cons_cons, cutBefore_cons_cons,
        ← List.map_cons, ih, eq]
      split
      · rfl
      · rfl

/-- A run starts with a member at which a run has to start, and there is no other one in it. -/
def BeginsOnce (starts : α → Bool) : List α → Prop
  | [] => False
  | a :: as => starts a = true ∧ ∀ b ∈ as, starts b = false

/-- A cut takes off a first run in front of a member at which a run has to start. -/
theorem cutBefore_append {starts : α → Bool} {a : α} {as rest : List α}
    (first : ∀ b ∈ as, starts b = false) (next : ∀ b ∈ rest.head?, starts b = true) :
    cutBefore starts (a :: as ++ rest) = (a :: as) :: cutBefore starts rest := by
  induction as generalizing a with
  | nil =>
    cases rest with
    | nil => rfl
    | cons b bs => exact (cutBefore_cons_cons starts a b bs).trans (if_pos (next b rfl))
  | cons b as ih =>
    obtain ⟨here, later⟩ := List.forall_mem_cons.mp first
    show cutBefore starts (a :: b :: (as ++ rest)) = _
    rw [cutBefore_cons_cons, here, if_neg Bool.false_ne_true, ← List.cons_append, ih later]
    rfl

/-- Runs that are put together are cut apart again. -/
theorem cutBefore_flatten {starts : α → Bool} {a : α} {as : List α} {runs : List (List α)}
    (first : ∀ b ∈ as, starts b = false) (later : ∀ run ∈ runs, BeginsOnce starts run) :
    cutBefore starts (a :: as ++ runs.flatten) = (a :: as) :: runs := by
  induction runs generalizing a as with
  | nil => exact cutBefore_append first fun _ hb => nomatch hb
  | cons run runs ih =>
    obtain ⟨here, rest⟩ := List.forall_mem_cons.mp later
    cases run with
    | nil => exact here.elim
    | cons b bs =>
      have next : ∀ c ∈ ((b :: bs) :: runs).flatten.head?, starts c = true := by
        rintro c ⟨⟩
        exact here.1
      rw [cutBefore_append first next, List.flatten_cons, ih here.2 rest]

/-- The runs of a list: each but the first starts with a member that satisfies `starts`, and no
other member does, except perhaps the very first one. -/
structure RunsOf (starts : α → Bool) (as : List α) (runs : List (List α)) : Prop where
  flatten : runs.flatten = as
  nonempty : ∀ run ∈ runs, run ≠ []
  begins : ∀ run ∈ runs.tail, ∀ a ∈ run.head?, starts a = true
  inside : ∀ run ∈ runs, ∀ a ∈ run.tail, starts a = false

/-- A list with no start behind its first member is one run. -/
theorem runsOf_singleton {starts : α → Bool} {as : List α} (some : as ≠ [])
    (inside : ∀ a ∈ as.tail, starts a = false) : RunsOf starts as [as] where
  flatten := List.append_nil as
  nonempty := List.forall_mem_singleton.mpr some
  begins := List.forall_mem_nil _
  inside := List.forall_mem_singleton.mpr inside

/-- Two lists are divided side by side in front of a member at which a run has to start. -/
theorem RunsOf.append {starts : α → Bool} {as bs : List α} {runs runs' : List (List α)}
    (h : RunsOf starts as runs) (h' : RunsOf starts bs runs')
    (next : ∀ b ∈ bs.head?, starts b = true) : RunsOf starts (as ++ bs) (runs ++ runs') where
  flatten := by rw [List.flatten_append, h.flatten, h'.flatten]
  nonempty := List.forall_mem_append.mpr ⟨h.nonempty, h'.nonempty⟩
  begins := by
    have later : ∀ run ∈ runs', ∀ b ∈ run.head?, starts b = true := by
      cases runs' with
      | nil => exact List.forall_mem_nil _
      | cons run runs' =>
        refine List.forall_mem_cons.mpr ⟨fun b hb => next b ?_, h'.begins⟩
        obtain ⟨bs', rfl⟩ := List.head?_eq_some_iff.mp hb
        rw [← h'.flatten]
        rfl
    cases runs with
    | nil => exact fun run hr => later run (List.mem_of_mem_tail hr)
    | cons run runs => exact List.forall_mem_append.mpr ⟨h.begins, later⟩
  inside := List.forall_mem_append.mpr ⟨h.inside, h'.inside⟩

theorem runsOf_cutBefore (starts : α → Bool) (as : List α) :
    RunsOf starts as (cutBefore starts as) := by
  induction as with
  | nil => exact ⟨rfl, List.forall_mem_nil _, List.forall_mem_nil _, List.forall_mem_nil _⟩
  | cons a as ih =>
    have alone : RunsOf starts [a] [[a]] :=
      runsOf_singleton (List.cons_ne_nil _ _) (List.forall_mem_nil _)
    cases as with
    | nil => exact alone
    | cons b bs =>
      have flat := flatten_cutBefore starts (a :: b :: bs)
      obtain ⟨run, runs, eq⟩ := exists_cutBefore_cons starts b bs
      rw [eq] at ih
      rw [cutBefore_cons_cons, eq] at flat ⊢
      by_cases start : starts b = true
      · rw [if_pos start]
        refine alone.append ih ?_
        rintro c ⟨⟩
        exact start
      · rw [if_neg start] at flat ⊢
        obtain ⟨within, others⟩ := List.forall_mem_cons.mp ih.inside
        have later := (List.forall_mem_cons.mp ih.nonempty).2
        have joined : ∀ c ∈ (a :: b :: run).tail, starts c = false :=
          List.forall_mem_cons.mpr ⟨Bool.eq_false_iff.mpr start, within⟩
        exact ⟨flat, List.forall_mem_cons.mpr ⟨List.cons_ne_nil _ _, later⟩, ih.begins,
          List.forall_mem_cons.mpr ⟨joined, others⟩⟩

/-- A list has only one such division. -/
theorem RunsOf.eq_cutBefore {starts : α → Bool} {as : List α} {runs : List (List α)}
    (h : RunsOf starts as runs) : runs = cutBefore starts as := by
  obtain ⟨rfl, nonempty, begins, inside⟩ := h
  cases runs with
  | nil => rfl
  | cons run later =>
    obtain ⟨some, laterSome⟩ := List.forall_mem_cons.mp nonempty
    obtain ⟨first, laterInside⟩ := List.forall_mem_cons.mp inside
    obtain ⟨a, as, rfl⟩ := List.exists_cons_of_ne_nil some
    refine (cutBefore_flatten first fun run mem => ?_).symm
    obtain ⟨b, bs, rfl⟩ := List.exists_cons_of_ne_nil (laterSome run mem)
    exact ⟨begins _ mem b rfl, laterInside _ mem⟩

/-- The results of a pass over runs, where the first run goes on from a state and every other one
starts afresh. -/
def threadRuns (f : σ → α → σ × β) (start s : σ) : List (List α) → List (List β)
  | [] => []
  | run :: runs => (thread f s run).2 :: runs.map fun run => (thread f start run).2

theorem threadRuns_start (f : σ → α → σ × β) (start : σ) (runs : List (List α)) :
    threadRuns f start start runs = runs.map fun run => (thread f start run).2 := by
  cases runs with
  | nil => rfl
  | cons run runs => rfl

/-- What each step of a pass keeps, the pass keeps. -/
theorem map_thread_keeps {f : σ → α → σ × β} {kept : β → γ} {known : α → γ}
    (keeps : ∀ s a, kept (f s a).2 = known a) (s : σ) (as : List α) :
    (thread f s as).2.map kept = as.map known := by
  induction as generalizing s with
  | nil => rfl
  | cons a as ih => rw [thread_cons, List.map_cons, keeps, ih, List.map_cons]

section Cut

variable {starts : α → Bool} {starts' : β → Bool} {f : σ → α → σ × β}
  (keeps : ∀ s a, starts' (f s a).2 = starts a)
include keeps

theorem threadRuns_cutBefore {start s : σ} {as : List α}
    (h : ∀ a ∈ as.head?, starts a = true → s = start) :
    threadRuns f start s (cutBefore starts as) =
      cutBefore starts' (thread (restarting starts f start) s as).2 := by
  induction as generalizing s with
  | nil => rfl
  | cons a as ih =>
    have here : restarting starts f start s a = f s a := by
      unfold restarting
      split
      · rename_i begins
        rw [h a rfl begins]
      · rfl
    rw [thread_cons, here]
    cases as with
    | nil => rfl
    | cons b bs =>
      have cut : cutBefore starts'
          ((f s a).2 :: (thread (restarting starts f start) (f s a).1 (b :: bs)).2) =
            if starts b then
              [(f s a).2] :: cutBefore starts' (thread (restarting starts f start) (f s a).1
                (b :: bs)).2
            else (cutBefore starts' (thread (restarting starts f start) (f s a).1
                (b :: bs)).2).modifyHead ((f s a).2 :: ·) := by
        rw [thread_cons, cutBefore_cons_cons, restarting, keeps]
      obtain ⟨run, runs, eq⟩ := exists_cutBefore_cons starts b bs
      rw [cut, cutBefore_cons_cons]
      by_cases hb : starts b = true
      · -- a new run: the state in front of `b` is forgotten on both sides
        have forget : thread (restarting starts f start) (f s a).1 (b :: bs) =
            thread (restarting starts f start) start (b :: bs) := by
          rw [thread_cons, thread_cons, restarting, restarting, if_pos hb, if_pos hb]
        rw [if_pos hb, if_pos hb, forget, ← ih fun _ _ _ => rfl, threadRuns_start]
        rfl
      · rw [if_neg hb, if_neg hb, ← ih fun c hc begins => absurd (Option.some.inj hc ▸ begins) hb,
          eq]
        rfl

/-- **A pass over each run of a cut is one pass that starts afresh where a run does.** -/
theorem map_thread_cutBefore (start : σ) (as : List α) :
    (cutBefore starts as).map (fun run => (thread f start run).2) =
      cutBefore starts' (thread (restarting starts f start) start as).2 := by
  rw [← threadRuns_start]
  exact threadRuns_cutBefore keeps fun _ _ _ => rfl

end Cut

/-- The same with the results put together. -/
theorem flatMap_thread_cutBefore (starts : α → Bool) (f : σ → α → σ × β) (start : σ)
    (as : List α) :
    (cutBefore starts as).flatMap (fun run => (thread f start run).2) =
      (thread (restarting starts f start) start as).2 := by
  -- a pass that keeps the members beside the results knows where the runs start
  let both (s : σ) (a : α) : σ × (α × β) := ((f s a).1, a, (f s a).2)
  have seconds (g : σ → α → σ × β) (h : σ → α → σ × (α × β))
      (same : ∀ s a, (h s a).1 = (g s a).1 ∧ (h s a).2.2 = (g s a).2) (s : σ) (as : List α) :
      (thread h s as).2.map Prod.snd = (thread g s as).2 := by
    induction as generalizing s with
    | nil => rfl
    | cons a as ih =>
      rw [thread_cons, thread_cons, List.map_cons, (same s a).1, (same s a).2, ih]
  have cut := @map_thread_cutBefore _ _ _ starts (fun x => starts x.1) both (fun _ _ => rfl)
    start as
  have whole := seconds (restarting starts f start) (restarting starts both start)
    (fun _ _ => ⟨rfl, rfl⟩) start as
  rw [← whole, ← flatten_cutBefore (fun x : α × β => starts x.1)
    (thread (restarting starts both start) start as).2, ← cut, List.map_flatten, List.map_map,
    List.flatMap_def]
  exact congrArg List.flatten
    (List.map_congr_left fun run _ => (seconds f both (fun _ _ => ⟨rfl, rfl⟩) start run).symm)

/-- A list is cut into runs of their lengths as the runs are. -/
theorem splitLengths_flatten (runs : List (List α)) :
    (runs.map List.length).splitLengths runs.flatten = runs := by
  induction runs with
  | nil => rfl
  | cons run runs ih =>
    rw [List.map_cons, List.flatten_cons, List.splitLengths_cons, List.take_left, List.drop_left,
      ih]

namespace Measure

/-- The attributes that open a measure; they state nothing if it does not open with attributes. -/
def head (m : Measure) : Attributes := m.headAttributes?.getD {}

/-- The elements of a measure behind the attributes that open it. -/
def body (m : Measure) : List Element :=
  match m.elements with
  | .attributes _ :: rest => rest
  | elements => elements

/-- A measure is its body behind its head, or it has no head. -/
theorem elements_eq (m : Measure) :
    m.elements = .attributes m.head :: m.body ∨ m.elements = m.body ∧ m.head = {} := by
  unfold head headAttributes? body
  cases m.elements with
  | nil => exact .inr ⟨rfl, rfl⟩
  | cons e es =>
    cases e with
    | attributes a => exact .inl rfl
    | note n => exact .inr ⟨rfl, rfl⟩
    | backup d => exact .inr ⟨rfl, rfl⟩
    | forward d => exact .inr ⟨rfl, rfl⟩

@[simp] theorem elements_withHead (m : Measure) (f : Attributes → Attributes) :
    (m.withHead f).elements = .attributes (f m.head) :: m.body := by
  unfold withHead head headAttributes? body
  cases m.elements with
  | nil => rfl
  | cons e es => cases e <;> rfl

@[simp] theorem head_withHead (m : Measure) (f : Attributes → Attributes) :
    (m.withHead f).head = f m.head := by
  rw [head, headAttributes?, elements_withHead]
  rfl

@[simp] theorem body_withHead (m : Measure) (f : Attributes → Attributes) :
    (m.withHead f).body = m.body := by
  rw [body, elements_withHead]

/-- A measure without its elements. -/
def frame (m : Measure) : Measure := { m with elements := [] }

@[simp] theorem frame_withHead (m : Measure) (f : Attributes → Attributes) :
    (m.withHead f).frame = m.frame := by
  unfold withHead
  split
  · rfl
  · rfl

/-- What attributes that state nothing do not change goes over the head and then the body. -/
theorem foldl_elements {after : σ → Element → σ} (empty : ∀ s, after s (.attributes {}) = s)
    (m : Measure) (s : σ) :
    m.elements.foldl after s = m.body.foldl after (after s (.attributes m.head)) := by
  rcases m.elements_eq with eq | ⟨eq, none⟩
  · rw [eq]
    rfl
  · rw [eq, none, empty]

end Measure

namespace Attributes

theorem update_empty (context : Attributes) : context.update {} = context := rfl

theorem restate_empty : ({} : Attributes).restate {} = {} := by
  unfold restate sortClefs missingClefs
  simp

/-- Attributes with nothing in force behind them state nothing. -/
theorem eq_empty_of_update_eq_empty {context a : Attributes} (h : context.update a = {}) :
    a = {} := by
  have first {α : Type} {new old : Option α} (h : new.or old = none) : new = none :=
    (Option.or_eq_none_iff.mp h).1
  have clefs : a.clefs = [] := by
    have put := congrArg Attributes.clefs h
    rcases a.clefs.eq_nil_or_concat with none | ⟨cs, c, eq⟩
    · exact none
    · -- the clef that is put in last stays
      rw [update, eq, List.concat_eq_append, List.foldl_append] at put
      simp [putClef] at put
  obtain ⟨divisions, key, time, staves, cs⟩ := a
  rw [show divisions = none from first (congrArg Attributes.divisions h),
    show key = none from first (congrArg Attributes.key h),
    show time = none from first (congrArg Attributes.time h),
    show staves = none from first (congrArg Attributes.staves h), show cs = [] from clefs]

end Attributes

/-- The context behind a measure is that behind its body, seen from behind its head. -/
theorem contextAfter_elements (context : Attributes) (m : Measure) :
    contextAfter context m.elements = contextAfter (context.update m.head) m.body := by
  rcases m.elements_eq with eq | ⟨eq, none⟩
  · rw [eq]
    rfl
  · rw [eq, none, Attributes.update_empty]

theorem restateStep_eq (context : Attributes) (m : Measure) :
    restateStep context m =
      (contextAfter (context.update m.head) (restateStep context m).2.elements,
        if m.breaks && !(context.update m.head).isEmpty then
          m.withHead (context.update m.head).restate
        else m) := rfl

/-- A step completes the head of a measure that starts a system, or it leaves the measure as it is:
one that starts no system, or one that nothing is known at. -/
theorem restateStep_cases (context : Attributes) (m : Measure) :
    (m.breaks = true ∧
        (restateStep context m).2 = m.withHead (context.update m.head).restate) ∨
      ((m.breaks = false ∨ context.update m.head = {}) ∧ (restateStep context m).2 = m) := by
  rw [restateStep_eq]
  by_cases h : (m.breaks && !(context.update m.head).isEmpty) = true
  · rw [if_pos h]
    exact .inl ⟨(Bool.and_eq_true_iff.mp h).1, rfl⟩
  · rw [if_neg h]
    refine .inr ⟨?_, rfl⟩
    by_cases breaks : m.breaks = true
    · refine .inr ?_
      simpa [breaks, Attributes.isEmpty] using h
    · exact .inl (by simpa using breaks)

/-- A measure that starts no system is left as it is. -/
theorem restateStep_of_unbroken {m : Measure} (h : m.breaks = false) (context : Attributes) :
    (restateStep context m).2 = m := by
  rw [restateStep_eq, h, Bool.false_and, if_neg Bool.false_ne_true]

@[simp] theorem frame_restateStep (context : Attributes) (m : Measure) :
    (restateStep context m).2.frame = m.frame := by
  rcases restateStep_cases context m with ⟨_, eq⟩ | ⟨_, eq⟩
  · rw [eq, Measure.frame_withHead]
  · rw [eq]

theorem breaks_restateStep (context : Attributes) (m : Measure) :
    (restateStep context m).2.breaks = m.breaks := by
  show (restateStep context m).2.frame.breaks = m.frame.breaks
  rw [frame_restateStep]

/-- A measure that starts a system opens with its head completed from the context behind it. -/
theorem head_restateStep (context : Attributes) (m : Measure) :
    (restateStep context m).2.head =
      if m.breaks then (context.update m.head).restate m.head else m.head := by
  rcases restateStep_cases context m with ⟨breaks, eq⟩ | ⟨kept, eq⟩
  · rw [eq, Measure.head_withHead, if_pos breaks]
  · rw [eq]
    split
    · -- nothing is known here, and so there is nothing to state
      rename_i breaks
      have none : context.update m.head = {} := kept.resolve_left (by simp [breaks])
      rw [none, Attributes.eq_empty_of_update_eq_empty none, Attributes.restate_empty]
    · rfl

@[simp] theorem body_restateStep (context : Attributes) (m : Measure) :
    (restateStep context m).2.body = m.body := by
  rcases restateStep_cases context m with ⟨_, eq⟩ | ⟨_, eq⟩
  · rw [eq, Measure.body_withHead]
  · rw [eq]

/-- The context behind a step is that behind the body, seen from behind the head twice. -/
theorem context_restateStep (context : Attributes) (m : Measure) :
    (restateStep context m).1 =
      contextAfter ((context.update m.head).update (restateStep context m).2.head) m.body := by
  show contextAfter (context.update m.head) (restateStep context m).2.elements = _
  rw [contextAfter_elements, body_restateStep]

/-! ## Systems -/

namespace Part

theorem restatedMeasures_eq_nil {p : Part} : p.restatedMeasures = [] ↔ p.measures = [] := by
  unfold restatedMeasures
  cases p.measures with
  | nil => exact Iff.rfl
  | cons m ms => simp

/-- The systems are the runs of the restated measures; without measures there is an empty one. -/
theorem map_systems (p : Part) (f : List Measure → β) :
    p.systems.map (fun system => f system.measures) =
      if p.measures = [] then [f []] else (cutBefore Measure.breaks p.restatedMeasures).map f := by
  have empty : (cutBefore Measure.breaks p.restatedMeasures).isEmpty = true ↔ p.measures = [] := by
    rw [List.isEmpty_iff, ← p.restatedMeasures_eq_nil]
    cases p.restatedMeasures with
    | nil => exact ⟨fun _ => rfl, fun _ => rfl⟩
    | cons m ms =>
      obtain ⟨run, runs, eq⟩ := exists_cutBefore_cons Measure.breaks m ms
      simp [eq]
  have systems : p.systems =
      (if (cutBefore Measure.breaks p.restatedMeasures).isEmpty then [[]]
        else cutBefore Measure.breaks p.restatedMeasures).map fun measures =>
          { p with measures } := by
    show (List.map _ _).flatten = _
    rw [← List.map_flatten]
    refine congrArg (List.map _) ?_
    split
    · rfl
    · exact flatten_cutBefore ..
  rw [systems, List.map_map]
  by_cases none : p.measures = []
  · rw [if_pos (empty.mpr none), if_pos none]
    rfl
  · rw [if_neg (none ∘ empty.mp), if_neg none]
    rfl

/-- The measures of systems put together are the restated measures. -/
theorem flatMap_systems (p : Part) {f : List Measure → List β} (empty : f [] = []) :
    p.systems.flatMap (fun system => f system.measures) =
      (cutBefore Measure.breaks p.restatedMeasures).flatMap f := by
  rw [List.flatMap_def, map_systems, List.flatMap_def]
  split
  · rename_i none
    rw [p.restatedMeasures_eq_nil.mpr none, empty]
    rfl
  · rfl

theorem map_breaks_restatedMeasures (p : Part) :
    p.restatedMeasures.map Measure.breaks = p.measures.map Measure.breaks := by
  unfold restatedMeasures
  cases p.measures with
  | nil => rfl
  | cons m ms => rw [List.map_cons, map_thread_keeps breaks_restateStep, List.map_cons]

theorem flatMap_measures_systems (p : Part) :
    p.systems.flatMap (·.measures) = p.restatedMeasures := by
  rw [p.flatMap_systems (f := fun ms => ms) rfl, List.flatMap_id', flatten_cutBefore]

section Cut

variable {f : σ → Measure → σ × β} {starts : β → Bool} (keeps : ∀ s m, starts (f s m).2 = m.breaks)
  {p : Part} (some : p.measures ≠ [])
include keeps some

end Cut

end Part

/-- Two passes go in step, one over a part and the other over its systems: with the context that is
tracked, their states stay in the relation `R`, and their results in the relation `E`. -/
structure InStep (f : σ → Measure → σ × β) (s₀ : σ) (g : τ → Measure → τ × γ) (t₀ : τ)
    (P : Measure → Prop) (R : Attributes → σ → τ → Prop) (E : β → γ → Prop) : Prop where
  first : ∀ m, P m → E (f s₀ m).2 (g t₀ m).2 ∧
    R (contextAfter {} m.elements) (f s₀ m).1 (g t₀ m).1
  next : ∀ c s t m, P m → R c s t →
    E (f s m).2 (g (if m.breaks then t₀ else t) (restateStep c m).2).2 ∧
      R (restateStep c m).1 (f s m).1 (g (if m.breaks then t₀ else t) (restateStep c m).2).1

/-- **Passes that go in step give related results for the measures of a part and of its
systems.** -/
theorem InStep.forall₂_systems {f : σ → Measure → σ × β} {s₀ : σ} {g : τ → Measure → τ × γ}
    {t₀ : τ} {P : Measure → Prop} {R : Attributes → σ → τ → Prop} {E : β → γ → Prop}
    (h : InStep f s₀ g t₀ P R E) {p : Part} (hp : ∀ m ∈ p.measures, P m) :
    List.Forall₂ E (thread f s₀ p.measures).2
      (p.systems.flatMap fun system => (thread g t₀ system.measures).2) := by
  have later (ms : List Measure) (hms : ∀ m ∈ ms, P m) (c : Attributes) (s : σ) (t : τ)
      (start : R c s t) : List.Forall₂ E (thread f s ms).2
        (thread (restarting Measure.breaks g t₀) t (thread restateStep c ms).2).2 := by
    induction ms generalizing c s t with
    | nil => exact .nil
    | cons m ms ih =>
      obtain ⟨here, rest⟩ := List.forall_mem_cons.mp hms
      obtain ⟨same, after⟩ := h.next c s t m here start
      rw [thread_cons, thread_cons, thread_cons, restarting, breaks_restateStep]
      exact .cons same (ih rest _ _ _ after)
  rw [p.flatMap_systems (f := fun ms => (thread g t₀ ms).2) rfl,
    flatMap_thread_cutBefore Measure.breaks g t₀ p.restatedMeasures]
  unfold Part.restatedMeasures
  cases hm : p.measures with
  | nil => exact .nil
  | cons m ms =>
    rw [hm] at hp
    obtain ⟨here, rest⟩ := List.forall_mem_cons.mp hp
    obtain ⟨same, after⟩ := h.first m here
    rw [thread_cons, thread_cons, restarting, ite_self]
    exact .cons same (later ms rest _ _ _ after)

end LinearScore
