import LinearScore.Proofs.ClefTable
import LinearScore.Proofs.Systems

/-!
# What is in force in a system

Attributes hold until others take their place, and a declared number of staves clears the clefs of
its staves.  A system is read from its own start, where nothing is in force, and yet at each of its
notes, backups and forwards there is in force what is in force in the part.

## Main definitions

* `InForce`: the divisions, key, time signature, number of staves and clefs in force
* `Part.inForce`: the notes, backups and forwards of each measure, each with what is in force there

The main statement is `map_inForce_systems`.
-/

namespace LinearScore

/-- What is in force at a place of a part. -/
@[ext]
structure InForce where
  divisions : Option Int := none
  key : Option KeySignature := none
  time : Option TimeSignature := none
  staves : Option Nat := none
  clef : Nat → Option Clef := fun _ => none

/-- Which clefs are cleared where a number of staves is declared: `clears staves staff` says
whether that of `staff` is. -/
abbrev ClearingRule := Nat → Nat → Bool

/-- A declared number of staves clears the clefs of all staves up to it. -/
def clearsUpTo : ClearingRule := fun staves staff => staff ≤ staves

/-- A declared number of staves clears the clefs of the staves that it counts, from the first
one. -/
def clearsCounted : ClearingRule := fun staves staff => 1 ≤ staff && staff ≤ staves

namespace InForce

/-- What is in force behind attributes. -/
def afterAttributes (clears : ClearingRule) (c : InForce) (a : Attributes) : InForce where
  divisions := a.divisions.or c.divisions
  key := a.key.or c.key
  time := a.time.or c.time
  staves := a.staves.or c.staves
  clef := fun staff => (lastClef staff a.clefs).or
    (if a.staves.any (clears · staff) then none else c.clef staff)

/-- What is in force behind an element. -/
def after (clears : ClearingRule) (c : InForce) : Element → InForce
  | .attributes a => c.afterAttributes clears a
  | _ => c

/-- The notes, backups and forwards among elements, each with what is in force there. -/
def along (clears : ClearingRule) (c : InForce) : List Element → List (Element × InForce)
  | [] => []
  | .attributes a :: es => along clears (c.afterAttributes clears a) es
  | e :: es => (e, c) :: along clears c es

/-- What is in force behind a measure, and at its notes, backups and forwards. -/
def measure (clears : ClearingRule) (c : InForce) (m : Measure) :
    InForce × List (Element × InForce) :=
  (m.elements.foldl (after clears) c, along clears c m.elements)

end InForce

/-- The notes, backups and forwards of each measure, each with what is in force there. -/
def Part.inForce (clears : ClearingRule) (p : Part) : List (List (Element × InForce)) :=
  (thread (InForce.measure clears) {} p.measures).2

/-- The divisions that an element declares, if any. -/
def Element.divisions? (e : Element) : Option Int := e.attributes?.bind (·.divisions)

/-- All divisions that a measure declares are positive. -/
def Measure.PositiveDivisions (m : Measure) : Prop := ∀ e ∈ m.elements, ∀ d ∈ e.divisions?, 0 < d

/-- The divisions that the attributes of a part declare. -/
def Part.declaredDivisions (p : Part) : List Int := p.elements.filterMap Element.divisions?

/-! ## Declared divisions -/

theorem Measure.positiveDivisions_iff (m : Measure) :
    m.PositiveDivisions ↔
      (∀ d ∈ m.head.divisions, 0 < d) ∧ ∀ e ∈ m.body, ∀ d ∈ e.divisions?, 0 < d := by
  unfold PositiveDivisions
  rcases m.elements_eq with eq | ⟨eq, none⟩
  · rw [eq]
    exact List.forall_mem_cons
  · rw [eq, none]
    exact ⟨fun h => ⟨fun _ hd => (nomatch hd), h⟩, fun h => h.2⟩

theorem Part.positive_declaredDivisions_iff (p : Part) :
    (∀ d ∈ p.declaredDivisions, 0 < d) ↔ ∀ m ∈ p.measures, m.PositiveDivisions := by
  constructor
  · intro h m hm e he d hd
    exact h d (List.mem_filterMap.mpr ⟨e, List.mem_flatMap.mpr ⟨m, hm, he⟩, hd⟩)
  · intro h d hd
    obtain ⟨e, he, hd⟩ := List.mem_filterMap.mp hd
    obtain ⟨m, hm, he⟩ := List.mem_flatMap.mp he
    exact h m hm e he d hd

/-- Where what is known is positive, the head of a measure in its system declares nothing but
positive divisions. -/
theorem positive_head_restateStep {context : Attributes} {m : Measure}
    (known : ∀ d ∈ context.divisions, 0 < d) (declared : ∀ d ∈ m.head.divisions, 0 < d) :
    ∀ d ∈ (restateStep context m).2.head.divisions, 0 < d := by
  rw [head_restateStep]
  split
  · intro d hd
    rcases Option.or_eq_some_iff.mp hd with hd | ⟨_, hd⟩
    · exact declared d hd
    · rcases Option.or_eq_some_iff.mp hd with hd | ⟨_, hd⟩
      · exact declared d hd
      · exact known d hd
  · exact declared

/-! ## Clefs of a context -/

theorem lastClef_putClef (staff : Nat) (clefs : List Clef) (c : Clef) :
    lastClef staff (Attributes.putClef clefs c) =
      if c.staff = staff then some c else lastClef staff clefs := by
  rw [Attributes.putClef, lastClef_concat]
  by_cases h : c.staff = staff
  · rw [if_pos h, if_pos h]
  · rw [if_neg h, if_neg h, lastClef, lastClef, List.filter_filter]
    refine congrArg List.getLast? (List.filter_congr ?_)
    intro d _
    by_cases hd : d.staff = staff
    · simp [hd, Ne.symm h]
    · simp [hd]

/-- Clefs that are put into a context replace those of their staves. -/
theorem lastClef_foldl_putClef (staff : Nat) (clefs new : List Clef) :
    lastClef staff (new.foldl Attributes.putClef clefs) =
      (lastClef staff new).or (lastClef staff clefs) := by
  induction new generalizing clefs with
  | nil => rfl
  | cons c new ih =>
    have first : lastClef staff (c :: new) =
        (lastClef staff new).or (if c.staff = staff then some c else none) := by
      rw [← List.singleton_append, lastClef_append]
      exact congrArg _ (lastClef_concat staff [] c)
    rw [List.foldl_cons, ih, lastClef_putClef, first, Option.or_assoc]
    split
    · rfl
    · rfl

theorem lastClef_keptClefs (staff : Nat) (clefs : List Clef) (staves : Option Nat) :
    lastClef staff (Attributes.keptClefs clefs staves) =
      if staves.any (clearsUpTo · staff) then none else lastClef staff clefs := by
  cases staves with
  | none => rfl
  | some n =>
    rw [Attributes.keptClefs, lastClef, lastClef, List.filter_filter]
    by_cases h : staff ≤ n
    · have gone : clefs.filter (fun c => decide (c.staff = staff) && decide (n < c.staff)) = [] := by
        rw [List.filter_eq_nil_iff]
        intro c _
        simp only [Bool.and_eq_true, decide_eq_true_eq]
        omega
      rw [gone]
      simp [clearsUpTo, h]
    · have kept : clefs.filter (fun c => decide (c.staff = staff) && decide (n < c.staff)) =
          clefs.filter (·.staff = staff) := by
        refine List.filter_congr ?_
        intro c _
        by_cases hc : c.staff = staff
        · simp [hc, Nat.lt_of_not_le h]
        · simp [hc]
      rw [kept]
      simp [clearsUpTo, h]

/-- Sorting clefs by their staves keeps the order of the clefs of each staff. -/
theorem filter_sortClefs (staff : Nat) (clefs : List Clef) :
    (Attributes.sortClefs clefs).filter (·.staff = staff) = clefs.filter (·.staff = staff) := by
  have level : (clefs.filter (·.staff = staff)).Pairwise fun c d => decide (c.staff ≤ d.staff) := by
    refine List.pairwise_of_forall_mem_list ?_
    intro c hc d hd
    have first := (List.mem_filter.mp hc).2
    have second := (List.mem_filter.mp hd).2
    simp only [decide_eq_true_eq] at first second ⊢
    omega
  have within : (clefs.filter (·.staff = staff)).Sublist (Attributes.sortClefs clefs) :=
    List.sublist_mergeSort (by simpa using fun a b c => Nat.le_trans)
      (by simpa using fun a b => Nat.le_total _ _) level List.filter_sublist
  have found := within.filter (·.staff = staff)
  rw [List.filter_filter] at found
  have same : clefs.filter (fun c => decide (c.staff = staff) && decide (c.staff = staff)) =
      clefs.filter (·.staff = staff) := by simp
  rw [same] at found
  refine (found.eq_of_length ?_).symm
  exact ((List.mergeSort_perm clefs _).filter _).length_eq.symm

theorem lastClef_sortClefs (staff : Nat) (clefs : List Clef) :
    lastClef staff (Attributes.sortClefs clefs) = lastClef staff clefs := by
  rw [lastClef, filter_sortClefs]
  rfl

/-- A context gives its clef for each staff that has none. -/
theorem lastClef_missingClefs (staff : Nat) (context clefs : List Clef) :
    lastClef staff (clefs ++ Attributes.missingClefs context clefs) =
      (lastClef staff clefs).or (lastClef staff context) := by
  rw [lastClef_append]
  cases h : lastClef staff clefs with
  | some c =>
    obtain ⟨eq, mem⟩ := staff_of_lastClef h
    have none : lastClef staff (Attributes.missingClefs context clefs) = none := by
      rw [lastClef, Attributes.missingClefs, List.filter_filter, List.getLast?_eq_none_iff,
        List.filter_eq_nil_iff]
      intro d _
      simp only [Bool.and_eq_true, decide_eq_true_eq, Bool.not_eq_true', List.any_eq_false, not_and,
        not_forall]
      rintro rfl
      exact ⟨c, mem, by simpa using eq⟩
    rw [none]
    rfl
  | none =>
    rw [Option.or_none, Option.none_or, lastClef, lastClef, Attributes.missingClefs,
      List.filter_filter]
    refine congrArg List.getLast? (List.filter_congr ?_)
    intro d _
    by_cases hd : d.staff = staff
    · have absent : clefs.any (fun c => c.staff = d.staff) = false := by
        rw [List.any_eq_false]
        intro c hc same
        obtain ⟨last, found⟩ := exists_lastClef hc
        rw [of_decide_eq_true same, hd, h] at found
        cases found
      rw [absent]
      simp [hd]
    · simp [hd]

/-! ## A context as what is in force -/

/-- What is in force behind attributes with nothing in front of them. -/
def Attributes.inForce (a : Attributes) : InForce where
  divisions := a.divisions
  key := a.key
  time := a.time
  staves := a.staves
  clef := fun staff => lastClef staff a.clefs

theorem Attributes.inForce_update (context a : Attributes) :
    (context.update a).inForce = context.inForce.afterAttributes clearsUpTo a := by
  refine InForce.ext rfl rfl rfl rfl ?_
  funext staff
  show lastClef staff (a.clefs.foldl Attributes.putClef _) = _
  rw [lastClef_foldl_putClef, lastClef_keptClefs]
  rfl

/-- A head that is restated from the context behind it states that context. -/
theorem Attributes.inForce_restate (context a : Attributes) :
    ((context.update a).restate a).inForce = (context.update a).inForce := by
  have again {α : Type} (new old : Option α) : new.or (new.or old) = new.or old := by
    rw [← Option.or_assoc, Option.or_self]
  refine InForce.ext (again ..) (again ..) (again ..) (again ..) ?_
  funext staff
  show lastClef staff (Attributes.sortClefs _) = lastClef staff (a.clefs.foldl _ _)
  rw [lastClef_sortClefs, lastClef_missingClefs, Attributes.update, lastClef_foldl_putClef, again]

namespace InForce

variable (clears : ClearingRule)

theorem afterAttributes_empty (c : InForce) : c.afterAttributes clears {} = c := rfl

/-- With nothing in front of them, attributes leave what they state. -/
theorem empty_afterAttributes (a : Attributes) :
    ({} : InForce).afterAttributes clears a = a.inForce := by
  refine InForce.ext (Option.or_none ..) (Option.or_none ..) (Option.or_none ..)
    (Option.or_none ..) ?_
  funext staff
  show (lastClef staff a.clefs).or (if _ then none else none) = lastClef staff a.clefs
  rw [ite_self, Option.or_none]

/-- Attributes that state all that is in force change nothing. -/
theorem afterAttributes_of_inForce {c : InForce} {a : Attributes} (h : a.inForce = c) :
    c.afterAttributes clears a = c := by
  subst h
  refine InForce.ext (Option.or_self ..) (Option.or_self ..) (Option.or_self ..)
    (Option.or_self ..) ?_
  funext staff
  show (lastClef staff a.clefs).or (if _ then none else lastClef staff a.clefs) = _
  split
  · exact Option.or_none ..
  · exact Option.or_self ..

/-- Attributes that are met twice count once. -/
theorem afterAttributes_twice (c : InForce) (a : Attributes) :
    (c.afterAttributes clears a).afterAttributes clears a = c.afterAttributes clears a := by
  have again {α : Type} (new old : Option α) : new.or (new.or old) = new.or old := by
    rw [← Option.or_assoc, Option.or_self]
  refine InForce.ext (again ..) (again ..) (again ..) (again ..) ?_
  funext staff
  show (lastClef staff a.clefs).or (if _ then none else (lastClef staff a.clefs).or _) = _
  show _ = (lastClef staff a.clefs).or (if _ then none else c.clef staff)
  split
  · rfl
  · exact again ..

theorem along_elements (c : InForce) (m : Measure) :
    c.along clears m.elements = (c.afterAttributes clears m.head).along clears m.body := by
  rcases m.elements_eq with eq | ⟨eq, none⟩
  · rw [eq]
    rfl
  · rw [eq, none, afterAttributes_empty]

theorem along_append (c : InForce) (es fs : List Element) :
    c.along clears (es ++ fs) =
      c.along clears es ++ (es.foldl (after clears) c).along clears fs := by
  induction es generalizing c with
  | nil => rfl
  | cons e es ih =>
    cases e with
    | attributes a => exact ih _
    | note n => exact congrArg ((_, c) :: ·) (ih c)
    | backup d => exact congrArg ((_, c) :: ·) (ih c)
    | forward d => exact congrArg ((_, c) :: ·) (ih c)

/-- What is in force in the measures of a part, put together. -/
theorem flatten_inForce (p : Part) :
    (p.inForce clears).flatten = ({} : InForce).along clears p.elements := by
  have along (c : InForce) (ms : List Measure) : (thread (measure clears) c ms).2.flatten =
      c.along clears (ms.flatMap (·.elements)) := by
    induction ms generalizing c with
    | nil => rfl
    | cons m ms ih =>
      rw [thread_cons, List.flatten_cons, ih, List.flatMap_cons, along_append]
      rfl
  exact along {} p.measures

/-- What is in force in a measure is that in its body, behind its head. -/
theorem measure_eq (c : InForce) (m : Measure) :
    c.measure clears m =
      (m.body.foldl (after clears) (c.afterAttributes clears m.head),
        (c.afterAttributes clears m.head).along clears m.body) := by
  rw [measure, Measure.foldl_elements (fun _ => rfl), along_elements]
  rfl

end InForce

theorem inForce_contextAfter (context : Attributes) (es : List Element) :
    (contextAfter context es).inForce = es.foldl (InForce.after clearsUpTo) context.inForce := by
  induction es generalizing context with
  | nil => rfl
  | cons e es ih =>
    cases e with
    | attributes a =>
      show (contextAfter (context.update a) es).inForce = _
      rw [ih, Attributes.inForce_update]
      rfl
    | note n => exact ih context
    | backup d => exact ih context
    | forward d => exact ih context

/-! ## Systems -/

/-- Behind the head of a measure there is in force in its system what is in force in the part. -/
theorem afterAttributes_restateStep (context : Attributes) (m : Measure) :
    (if m.breaks then {} else context.inForce).afterAttributes clearsUpTo
        (restateStep context m).2.head =
      context.inForce.afterAttributes clearsUpTo m.head := by
  rw [head_restateStep]
  split
  · rw [InForce.empty_afterAttributes, Attributes.inForce_restate, Attributes.inForce_update]
  · rfl

/-- What a step states again changes nothing. -/
theorem inForce_update_restateStep (context : Attributes) (m : Measure) :
    ((context.update m.head).update (restateStep context m).2.head).inForce =
      (context.update m.head).inForce := by
  rw [Attributes.inForce_update, head_restateStep]
  split
  · exact InForce.afterAttributes_of_inForce clearsUpTo (Attributes.inForce_restate ..)
  · rw [Attributes.inForce_update, InForce.afterAttributes_twice]

/-- The context behind a step is what is in force behind the measure. -/
theorem inForce_restateStep (context : Attributes) (m : Measure) :
    (restateStep context m).1.inForce = (context.inForce.measure clearsUpTo m).1 := by
  rw [context_restateStep, inForce_contextAfter, inForce_update_restateStep,
    Attributes.inForce_update, InForce.measure_eq]

/-- What is in force in the systems goes in step with what is in force in the part, and both with
the context that is tracked. -/
theorem inStep_inForce :
    InStep (InForce.measure clearsUpTo) {} (InForce.measure clearsUpTo) {} (fun _ => True)
      (fun context s t => s = context.inForce ∧ t = context.inForce) Eq where
  first m _ := by
    refine ⟨rfl, ?_⟩
    rw [inForce_contextAfter]
    exact ⟨rfl, rfl⟩
  next context s t m _ := by
    rintro ⟨rfl, rfl⟩
    have same : (if m.breaks then {} else context.inForce).measure clearsUpTo
        (restateStep context m).2 = context.inForce.measure clearsUpTo m := by
      rw [InForce.measure_eq, afterAttributes_restateStep, body_restateStep, InForce.measure_eq]
    rw [same, inForce_restateStep]
    exact ⟨rfl, rfl, rfl⟩

/-- What is in force in the systems, one after the other, is what is in force in the part. -/
theorem flatMap_inForce_systems (p : Part) :
    p.systems.flatMap (Part.inForce clearsUpTo) = p.inForce clearsUpTo :=
  (List.forall₂_eq_eq_eq ▸ inStep_inForce.forall₂_systems fun _ _ => trivial :
    p.inForce clearsUpTo = _).symm

theorem length_inForce (clears : ClearingRule) (p : Part) :
    (p.inForce clears).length = p.measures.length := length_thread ..

/-- **At each note, backup and forward of a system there is in force what is in force in the part.**
What is in force in the systems are the stretches of what is in force in the part. -/
theorem map_inForce_systems (p : Part) :
    p.systems.map (Part.inForce clearsUpTo) =
      (p.systems.map (·.measures.length)).splitLengths (p.inForce clearsUpTo) := by
  have lengths : p.systems.map (·.measures.length) =
      (p.systems.map (Part.inForce clearsUpTo)).map List.length := by
    rw [List.map_map]
    exact List.map_congr_left fun system _ => (length_inForce clearsUpTo system).symm
  rw [← flatMap_inForce_systems p, lengths, List.flatMap_def, splitLengths_flatten]

/-- A clef for the staff with the number zero, and then a number of staves. -/
def staffZeroPart : Part where
  id := "P1"
  measures :=
    [{ number := 1
       elements := [.attributes { clefs := [⟨some 0, "G", 2⟩] }, .attributes { staves := some 1 },
         .forward 1] },
      { number := 2, newSystem := true, elements := [.forward 1] }]

/-- A number of staves that cleared only the clefs of the staves it counts would leave that of the
staff zero, which the second system does not state. -/
theorem map_inForce_systems_counted :
    staffZeroPart.systems.map (Part.inForce clearsCounted) ≠
      (staffZeroPart.systems.map (·.measures.length)).splitLengths
        (staffZeroPart.inForce clearsCounted) := by
  intro same
  have clefs := congrArg (List.map (List.map (List.map fun x => x.2.clef 0))) same
  revert clefs
  decide +kernel

end LinearScore
