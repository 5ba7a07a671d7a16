import LinearScore.Duration.Form
import LinearScore.Proofs.InForce

/-!
# Durations system by system

Cutting a part into systems restates divisions, and the conversion of durations takes all divisions
out again.  So a part can be converted before it is cut or after, and the results differ only in
attributes that state nothing.

## Main definitions

* `AllDivide`: elements that can be converted
* `inQuarters`: elements in quarters
* `pagesOf`: the measures of each system, page by page
* `Part.tidied`: a part without attributes that state nothing

The main statement is `toQuarters_pages`.
-/

namespace LinearScore

/-! ## Elements in quarters -/

/-- Attributes without their divisions. -/
def Attributes.undivided (a : Attributes) : Attributes := { a with divisions := none }

namespace Element

/-- An element can be converted where some divisions are in force: what it declares is positive, and
it has no duration in front of all divisions. -/
def Divides (divisions : Option Int) (e : Element) : Prop :=
  (∀ d ∈ e.divisions?, 0 < d) ∧ (e.duration?.isSome → divisions.isSome)

/-- An element without divisions, and with its duration in quarters. -/
def inQuarters (divisions : Option Int) : Element → Element
  | .attributes a => .attributes a.undivided
  | e => divisions.elim e fun d => e.mapDuration (· / (d : Rat))

end Element

/-- The divisions in force behind elements. -/
def divisionsBehind (divisions : Option Int) (es : List Element) : Option Int :=
  es.foldl (fun d e => e.divisions?.or d) divisions

/-- Elements in quarters. -/
def inQuarters (divisions : Option Int) : List Element → List Element
  | [] => []
  | e :: es => e.inQuarters divisions :: inQuarters (e.divisions?.or divisions) es

/-- All elements can be converted. -/
def AllDivide (divisions : Option Int) : List Element → Prop
  | [] => True
  | e :: es => e.Divides divisions ∧ AllDivide (e.divisions?.or divisions) es

/-- A measure in quarters, and the divisions behind it. -/
def Measure.inQuarters (divisions : Option Int) (m : Measure) : Option Int × Measure :=
  (divisionsBehind divisions m.elements,
    { m with elements := LinearScore.inQuarters divisions m.elements })

theorem allDivide_append (divisions : Option Int) (es fs : List Element) :
    AllDivide divisions (es ++ fs) ↔
      AllDivide divisions es ∧ AllDivide (divisionsBehind divisions es) fs := by
  induction es generalizing divisions with
  | nil => exact ⟨fun h => ⟨trivial, h⟩, fun h => h.2⟩
  | cons e es ih =>
    show _ ∧ AllDivide _ (es ++ fs) ↔ _
    rw [ih, ← and_assoc]
    exact Iff.rfl

theorem inQuarters_append (divisions : Option Int) (es fs : List Element) :
    inQuarters divisions (es ++ fs) =
      inQuarters divisions es ++ inQuarters (divisionsBehind divisions es) fs := by
  induction es generalizing divisions with
  | nil => rfl
  | cons e es ih => exact congrArg (_ :: ·) (ih _)

/-- Elements can be converted if what they declare is positive, and if divisions are in force at
each duration. -/
theorem allDivide_iff (c : InForce) (es : List Element) :
    AllDivide c.divisions es ↔
      (∀ e ∈ es, ∀ d ∈ e.divisions?, 0 < d) ∧
        ∀ x ∈ c.along clearsUpTo es, x.1.duration?.isSome → x.2.divisions.isSome := by
  -- what an element with a duration adds to both sides
  have timed {A B C D E : Prop} (ih : E ↔ C ∧ D) : (A ∧ B) ∧ E ↔ (A ∧ C) ∧ B ∧ D := by
    rw [ih, and_and_and_comm]
  induction es generalizing c with
  | nil => simp [AllDivide, InForce.along]
  | cons e es ih =>
    rw [List.forall_mem_cons]
    cases e with
    | attributes a =>
      rw [and_assoc]
      refine and_congr ⟨fun h => h.1, fun h => ⟨h, fun timed => nomatch timed⟩⟩ ?_
      exact ih (c.afterAttributes clearsUpTo a)
    | note n =>
      show _ ↔ _ ∧ ∀ x ∈ (_, c) :: c.along clearsUpTo es, _
      rw [List.forall_mem_cons]
      exact timed (ih c)
    | backup d =>
      show _ ↔ _ ∧ ∀ x ∈ (_, c) :: c.along clearsUpTo es, _
      rw [List.forall_mem_cons]
      exact timed (ih c)
    | forward d =>
      show _ ↔ _ ∧ ∀ x ∈ (_, c) :: c.along clearsUpTo es, _
      rw [List.forall_mem_cons]
      exact timed (ih c)

/-! ## The scan -/

namespace QuarterScan

variable (measure : Int) {divisions : Option Int}

theorem element_of_divides {e : Element} (h : e.Divides divisions) :
    element measure ⟨divisions, none⟩ e =
      (⟨e.divisions?.or divisions, none⟩, e.inQuarters divisions) := by
  obtain ⟨positive, known⟩ := h
  cases e with
  | attributes a =>
    obtain ⟨declared, key, time, staves, clefs⟩ := a
    cases declared with
    | none => rfl
    | some d =>
      show (if 0 < d then _ else _) = _
      rw [if_pos (positive d rfl)]
      rfl
  | note n =>
    obtain ⟨printed, grace, chord, content, duration⟩ := n
    cases duration with
    | none =>
      cases divisions with
      | none => rfl
      | some d => rfl
    | some duration =>
      obtain ⟨d, rfl⟩ := Option.isSome_iff_exists.mp (known rfl)
      rfl
  | backup duration =>
    obtain ⟨d, rfl⟩ := Option.isSome_iff_exists.mp (known rfl)
    rfl
  | forward duration =>
    obtain ⟨d, rfl⟩ := Option.isSome_iff_exists.mp (known rfl)
    rfl

theorem isSome_fault_element {e : Element} (h : ¬ e.Divides divisions) :
    (element measure ⟨divisions, none⟩ e).1.fault.isSome := by
  cases e with
  | attributes a =>
    obtain ⟨declared, key, time, staves, clefs⟩ := a
    cases declared with
    | none => exact (h ⟨fun _ hd => (nomatch hd), fun timed => nomatch timed⟩).elim
    | some d =>
      have negative : ¬ 0 < d := by
        intro positive
        refine h ⟨?_, fun timed => nomatch timed⟩
        rintro _ ⟨⟩
        exact positive
      show (if 0 < d then _ else _ : QuarterScan × Element).1.fault.isSome
      rw [if_neg negative]
      rfl
  | note n =>
    obtain ⟨printed, grace, chord, content, duration⟩ := n
    cases duration with
    | none => exact (h ⟨fun _ hd => (nomatch hd), fun timed => nomatch timed⟩).elim
    | some duration =>
      cases divisions with
      | none => rfl
      | some d => exact (h ⟨fun _ hd => (nomatch hd), fun _ => rfl⟩).elim
  | backup duration =>
    cases divisions with
    | none => rfl
    | some d => exact (h ⟨fun _ hd => (nomatch hd), fun _ => rfl⟩).elim
  | forward duration =>
    cases divisions with
    | none => rfl
    | some d => exact (h ⟨fun _ hd => (nomatch hd), fun _ => rfl⟩).elim

/-- Behind a fault the scan goes no further. -/
theorem thread_element_of_isSome {s : QuarterScan} (h : s.fault.isSome) (es : List Element) :
    (thread (element measure) s es).1 = s := by
  obtain ⟨fault, eq⟩ := Option.isSome_iff_exists.mp h
  induction es with
  | nil => rfl
  | cons e es ih =>
    have stays : element measure s e = (s, e) := by
      unfold element
      rw [eq]
    rw [thread_cons, stays]
    exact ih

theorem thread_element_of_allDivide {es : List Element} (h : AllDivide divisions es) :
    thread (element measure) ⟨divisions, none⟩ es =
      (⟨divisionsBehind divisions es, none⟩, inQuarters divisions es) := by
  induction es generalizing divisions with
  | nil => rfl
  | cons e es ih =>
    rw [thread_cons, element_of_divides measure h.1, ih h.2]
    rfl

theorem isSome_fault_thread_element {es : List Element} (h : ¬ AllDivide divisions es) :
    (thread (element measure) ⟨divisions, none⟩ es).1.fault.isSome := by
  induction es generalizing divisions with
  | nil => exact (h trivial).elim
  | cons e es ih =>
    rw [thread_cons]
    by_cases here : e.Divides divisions
    · rw [element_of_divides measure here]
      exact ih fun rest => h ⟨here, rest⟩
    · have fault := isSome_fault_element measure here
      rw [thread_element_of_isSome measure fault]
      exact fault

theorem thread_measure_of_isSome {s : QuarterScan} (h : s.fault.isSome) (ms : List Measure) :
    (thread QuarterScan.measure s ms).1 = s := by
  induction ms with
  | nil => rfl
  | cons m ms ih =>
    have stays : (s.measure m).1 = s := thread_element_of_isSome m.number h m.elements
    rw [thread_cons, stays]
    exact ih

theorem thread_measure_of_allDivide {ms : List Measure}
    (h : AllDivide divisions (ms.flatMap (·.elements))) :
    (thread QuarterScan.measure ⟨divisions, none⟩ ms).1.fault = none ∧
      (thread QuarterScan.measure ⟨divisions, none⟩ ms).2 =
        (thread Measure.inQuarters divisions ms).2 := by
  induction ms generalizing divisions with
  | nil => exact ⟨rfl, rfl⟩
  | cons m ms ih =>
    rw [List.flatMap_cons, allDivide_append] at h
    have here : QuarterScan.measure ⟨divisions, none⟩ m =
        (⟨divisionsBehind divisions m.elements, none⟩, (m.inQuarters divisions).2) := by
      show ((thread (element m.number) _ m.elements).1, _) = _
      rw [thread_element_of_allDivide m.number h.1]
      rfl
    obtain ⟨fine, same⟩ := ih h.2
    rw [thread_cons, thread_cons, here]
    exact ⟨fine, congrArg _ same⟩

theorem isSome_fault_thread_measure {ms : List Measure}
    (h : ¬ AllDivide divisions (ms.flatMap (·.elements))) :
    (thread QuarterScan.measure ⟨divisions, none⟩ ms).1.fault.isSome := by
  induction ms generalizing divisions with
  | nil => exact (h trivial).elim
  | cons m ms ih =>
    rw [List.flatMap_cons, allDivide_append] at h
    rw [thread_cons]
    by_cases here : AllDivide divisions m.elements
    · have state : (QuarterScan.measure ⟨divisions, none⟩ m).1 =
          ⟨divisionsBehind divisions m.elements, none⟩ :=
        congrArg Prod.fst (thread_element_of_allDivide m.number here)
      rw [state]
      exact ih fun rest => h ⟨here, rest⟩
    · have fault : (QuarterScan.measure ⟨divisions, none⟩ m).1.fault.isSome :=
        isSome_fault_thread_element m.number here
      rw [thread_measure_of_isSome fault]
      exact fault

end QuarterScan

namespace Part

/-- A part is converted if its scan meets no fault. -/
theorem outcome_toQuarters_eq_ok_iff_fault (p : Part) :
    p.toQuarters.outcome = .ok () ↔
      (thread QuarterScan.measure ⟨none, none⟩ p.measures).1.fault = none := by
  unfold toQuarters
  obtain ⟨⟨divisions, fault⟩, measures⟩ := thread QuarterScan.measure ⟨none, none⟩ p.measures
  cases fault with
  | none => exact ⟨fun _ => rfl, fun _ => rfl⟩
  | some fault => exact ⟨fun ok => (nomatch ok), fun none => (nomatch none)⟩

/-- A part is converted if all of its elements can be. -/
theorem outcome_toQuarters_eq_ok_iff (p : Part) :
    p.toQuarters.outcome = .ok () ↔ AllDivide none p.elements := by
  rw [outcome_toQuarters_eq_ok_iff_fault]
  constructor
  · intro none
    by_contra fails
    have some := QuarterScan.isSome_fault_thread_measure fails
    rw [none] at some
    cases some
  · intro all
    rw [(QuarterScan.thread_measure_of_allDivide all).1]

/-- What a part that can be converted is converted to. -/
theorem part_toQuarters {p : Part} (ok : p.toQuarters.outcome = .ok ()) :
    p.toQuarters.part =
      { p with measures := (thread Measure.inQuarters none p.measures).2 } := by
  rw [← (QuarterScan.thread_measure_of_allDivide (p.outcome_toQuarters_eq_ok_iff.mp ok)).2]
  rfl

end Part

/-! ## Which systems can be converted -/

theorem divisions_contextAfter (context : Attributes) (es : List Element) :
    (contextAfter context es).divisions = divisionsBehind context.divisions es := by
  induction es generalizing context with
  | nil => rfl
  | cons e es ih =>
    cases e with
    | attributes a => exact ih (context.update a)
    | note n => exact ih context
    | backup d => exact ih context
    | forward d => exact ih context

/-- The divisions behind a step are those behind the measure. -/
theorem divisions_restateStep (context : Attributes) (m : Measure) :
    (restateStep context m).1.divisions = divisionsBehind context.divisions m.elements := by
  have same : (restateStep context m).1.inForce = (contextAfter context m.elements).inForce := by
    rw [inForce_restateStep, inForce_contextAfter]
    rfl
  exact (congrArg InForce.divisions same).trans (divisions_contextAfter context m.elements)

/-- Divisions that are positive stay positive. -/
theorem positive_divisionsBehind {divisions : Option Int} {es : List Element}
    (known : ∀ d ∈ divisions, 0 < d) (declared : ∀ e ∈ es, ∀ d ∈ e.divisions?, 0 < d) :
    ∀ d ∈ divisionsBehind divisions es, 0 < d := by
  induction es generalizing divisions with
  | nil => exact known
  | cons e es ih =>
    obtain ⟨here, rest⟩ := List.forall_mem_cons.mp declared
    refine ih ?_ rest
    intro d hd
    rcases Option.or_eq_some_iff.mp hd with hd | ⟨_, hd⟩
    · exact here d hd
    · exact known d hd

theorem positiveDivisions_restateStep_iff {context : Attributes} (m : Measure)
    (known : ∀ d ∈ context.divisions, 0 < d) :
    (restateStep context m).2.PositiveDivisions ↔ m.PositiveDivisions := by
  rw [Measure.positiveDivisions_iff, Measure.positiveDivisions_iff, body_restateStep]
  refine and_congr_left fun _ => ⟨?_, positive_head_restateStep known⟩
  rw [head_restateStep]
  split
  · intro h d hd
    exact h d (Option.or_eq_some_iff.mpr (.inl hd))
  · exact id

/-- Restated divisions are those of measures before. -/
theorem positiveDivisions_thread_restateStep_iff {context : Attributes}
    (known : ∀ d ∈ context.divisions, 0 < d) (ms : List Measure) :
    (∀ m ∈ (thread restateStep context ms).2, m.PositiveDivisions) ↔
      ∀ m ∈ ms, m.PositiveDivisions := by
  induction ms generalizing context with
  | nil => exact Iff.rfl
  | cons m ms ih =>
    rw [thread_cons, List.forall_mem_cons, List.forall_mem_cons,
      positiveDivisions_restateStep_iff m known]
    refine and_congr_right ?_
    intro declared
    apply ih
    rw [divisions_restateStep]
    exact positive_divisionsBehind known declared

namespace Part

theorem positive_declaredDivisions_systems_iff (p : Part) :
    (∀ system ∈ p.systems, ∀ d ∈ system.declaredDivisions, 0 < d) ↔
      ∀ d ∈ p.declaredDivisions, 0 < d := by
  have systems : (∀ system ∈ p.systems, ∀ d ∈ system.declaredDivisions, 0 < d) ↔
      ∀ m ∈ p.restatedMeasures, m.PositiveDivisions := by
    rw [← flatMap_measures_systems, List.forall_mem_flatMap]
    exact forall₂_congr fun system _ => system.positive_declaredDivisions_iff
  rw [systems, p.positive_declaredDivisions_iff, restatedMeasures]
  cases p.measures with
  | nil => exact Iff.rfl
  | cons m ms =>
    rw [List.forall_mem_cons, List.forall_mem_cons]
    refine and_congr_right ?_
    intro declared
    apply positiveDivisions_thread_restateStep_iff
    rw [divisions_contextAfter]
    exact positive_divisionsBehind (fun _ hd => nomatch hd) declared

/-- A part can be converted if its divisions are positive and in force at each duration. -/
theorem outcome_toQuarters_eq_ok_iff_inForce (p : Part) :
    p.toQuarters.outcome = .ok () ↔
      (∀ d ∈ p.declaredDivisions, 0 < d) ∧
        ∀ es ∈ p.inForce clearsUpTo, ∀ x ∈ es, x.1.duration?.isSome → x.2.divisions.isSome := by
  rw [outcome_toQuarters_eq_ok_iff, ← List.forall_mem_flatten, InForce.flatten_inForce,
    positive_declaredDivisions_iff]
  refine (allDivide_iff {} p.elements).trans (and_congr_left fun _ => ?_)
  exact List.forall_mem_flatMap

/-- A part can be converted if each of its systems can be. -/
theorem outcome_toQuarters_systems_iff (p : Part) :
    p.toQuarters.outcome = .ok () ↔ ∀ system ∈ p.systems, system.toQuarters.outcome = .ok () := by
  rw [outcome_toQuarters_eq_ok_iff_inForce, ← positive_declaredDivisions_systems_iff,
    ← flatMap_inForce_systems, List.forall_mem_flatMap, ← forall₂_and]
  exact forall₂_congr fun system _ => system.outcome_toQuarters_eq_ok_iff_inForce.symm

end Part

/-! ## Cutting what is converted -/

theorem Attributes.undivided_update (context a : Attributes) :
    (context.update a).undivided = context.undivided.update a.undivided := rfl

theorem Attributes.undivided_restate (context a : Attributes) :
    (context.restate a).undivided = context.undivided.restate a.undivided := rfl

theorem contextAfter_inQuarters (divisions : Option Int) (context : Attributes) (es : List Element) :
    contextAfter context.undivided (inQuarters divisions es) =
      (contextAfter context es).undivided := by
  induction es generalizing divisions context with
  | nil => rfl
  | cons e es ih =>
    cases e with
    | attributes a => exact ih _ (context.update a)
    | note n => cases divisions <;> exact ih _ context
    | backup d => cases divisions <;> exact ih _ context
    | forward d => cases divisions <;> exact ih _ context

namespace Measure

variable (divisions : Option Int) (m : Measure)

@[simp] theorem frame_inQuarters : (m.inQuarters divisions).2.frame = m.frame := rfl

/-- The head and the body of a measure are converted on their own. -/
theorem head_body_inQuarters :
    (m.inQuarters divisions).2.head = m.head.undivided ∧
      (m.inQuarters divisions).2.body =
        LinearScore.inQuarters (m.head.divisions.or divisions) m.body := by
  obtain ⟨number, implicit, newSystem, newPage, elements⟩ := m
  cases elements with
  | nil => exact ⟨rfl, rfl⟩
  | cons e es =>
    cases e with
    | attributes a => exact ⟨rfl, rfl⟩
    | note n => cases divisions <;> exact ⟨rfl, rfl⟩
    | backup d => cases divisions <;> exact ⟨rfl, rfl⟩
    | forward d => cases divisions <;> exact ⟨rfl, rfl⟩

/-- A measure without attributes that state nothing. -/
def tidied (m : Measure) : Measure := { m with elements := m.elements.filter (· ≠ .attributes {}) }

/-- An empty head does not count in a tidied measure. -/
theorem tidied_congr {m m' : Measure} (frame : m.frame = m'.frame) (head : m.head = m'.head)
    (body : m.body = m'.body) : m.tidied = m'.tidied := by
  have stated (m : Measure) : m.elements.filter (· ≠ .attributes {}) =
      (.attributes m.head :: m.body).filter (· ≠ .attributes {}) := by
    rcases m.elements_eq with eq | ⟨eq, none⟩
    · rw [eq]
    · rw [eq, none]
      rfl
  have whole (m : Measure) : m.tidied =
      { m.frame with elements := (.attributes m.head :: m.body).filter (· ≠ .attributes {}) } := by
    rw [← stated]
    rfl
  rw [whole, whole, frame, head, body]

end Measure

/-- A step of restating; what is in front of the first measure is nothing. -/
def restateLater : Option Attributes → Measure → Option Attributes × Measure
  | none, m => (some (contextAfter {} m.elements), m)
  | some context, m => (some (restateStep context m).1, (restateStep context m).2)

theorem restatedMeasures_eq (p : Part) :
    p.restatedMeasures = (thread restateLater none p.measures).2 := by
  have along (context : Attributes) (ms : List Measure) :
      (thread restateStep context ms).2 = (thread restateLater (some context) ms).2 := by
    induction ms generalizing context with
    | nil => rfl
    | cons m ms ih =>
      rw [thread_cons, thread_cons, ih]
      rfl
  unfold Part.restatedMeasures
  cases p.measures with
  | nil => rfl
  | cons m ms => exact congrArg (m :: ·) (along (contextAfter {} m.elements) ms)

/-- A measure in quarters, restated from what is in front of it. -/
def restateQuarters (s : Option Int × Option Attributes) (m : Measure) :
    (Option Int × Option Attributes) × Measure :=
  (((m.inQuarters s.1).1, (restateLater s.2 (m.inQuarters s.1).2).1),
    (restateLater s.2 (m.inQuarters s.1).2).2)

theorem thread_restateQuarters (s : Option Int × Option Attributes) (ms : List Measure) :
    (thread restateQuarters s ms).2 =
      (thread restateLater s.2 (thread Measure.inQuarters s.1 ms).2).2 := by
  induction ms generalizing s with
  | nil => rfl
  | cons m ms ih =>
    rw [thread_cons, ih]
    rfl

/-- The divisions behind a measure are those behind its body, seen from behind its head. -/
theorem divisionsBehind_elements (divisions : Option Int) (m : Measure) :
    divisionsBehind divisions m.elements = divisionsBehind (m.head.divisions.or divisions) m.body :=
  Measure.foldl_elements (fun _ => rfl) m divisions

/-- Behind the head of a measure there are the same divisions in its system. -/
theorem divisions_head_restateStep (context : Attributes) (m : Measure) :
    (restateStep context m).2.head.divisions.or (if m.breaks then none else context.divisions) =
      m.head.divisions.or context.divisions := by
  rw [head_restateStep]
  split
  · show (m.head.divisions.or (m.head.divisions.or context.divisions)).or none = _
    rw [Option.or_none, ← Option.or_assoc, Option.or_self]
  · rfl

/-- A head is restated without divisions as it is restated with them. -/
theorem head_restateStep_inQuarters (divisions : Option Int) (context : Attributes) (m : Measure) :
    (restateStep context.undivided (m.inQuarters divisions).2).2.head =
      (restateStep context m).2.head.undivided := by
  have breaks : (m.inQuarters divisions).2.breaks = m.breaks := rfl
  rw [head_restateStep, head_restateStep, breaks, (m.head_body_inQuarters divisions).1]
  split
  · rw [Attributes.undivided_restate, Attributes.undivided_update]
  · rfl

/-- The rest of the context does not depend on divisions. -/
theorem context_restateStep_inQuarters (divisions : Option Int) (context : Attributes)
    (m : Measure) :
    (restateStep context.undivided (m.inQuarters divisions).2).1 =
      (restateStep context m).1.undivided := by
  obtain ⟨head, body⟩ := m.head_body_inQuarters divisions
  rw [context_restateStep, context_restateStep, head_restateStep_inQuarters, head, body,
    ← Attributes.undivided_update, ← Attributes.undivided_update, contextAfter_inQuarters]

/-- Converting and restating goes in step with restating and converting: the divisions that are
known are those of the context, and the rest of the context is the other context. -/
theorem inStep_restateQuarters :
    InStep restateQuarters (none, none) Measure.inQuarters none (fun _ => True)
      (fun context s divisions => s = (context.divisions, some context.undivided) ∧
        divisions = context.divisions)
      (fun m m' => m.tidied = m'.tidied) where
  first m _ := by
    refine ⟨rfl, ?_, ?_⟩
    · show (divisionsBehind none m.elements, some (contextAfter _ (inQuarters none m.elements))) = _
      rw [divisions_contextAfter, ← contextAfter_inQuarters none]
      rfl
    · exact (divisions_contextAfter {} m.elements).symm
  next context s divisions m _ := by
    rintro ⟨rfl, rfl⟩
    have known := divisions_head_restateStep context m
    refine ⟨Measure.tidied_congr ?_ ?_ ?_, ?_, ?_⟩
    · show (restateStep context.undivided (m.inQuarters context.divisions).2).2.frame = _
      rw [frame_restateStep, Measure.frame_inQuarters, Measure.frame_inQuarters, frame_restateStep]
    · rw [(Measure.head_body_inQuarters _ _).1]
      exact head_restateStep_inQuarters ..
    · rw [(Measure.head_body_inQuarters _ _).2, body_restateStep, known]
      show (restateStep context.undivided (m.inQuarters context.divisions).2).2.body = _
      rw [body_restateStep, (m.head_body_inQuarters _).2]
    · show (divisionsBehind context.divisions m.elements, some _) = _
      rw [divisions_restateStep, ← context_restateStep_inQuarters context.divisions]
    · show divisionsBehind _ (restateStep context m).2.elements = _
      rw [divisionsBehind_elements, body_restateStep, known, divisions_restateStep,
        divisionsBehind_elements]

/-! ## Pages -/

/-- The measures of each system, page by page. -/
def pagesOf (ms : List Measure) : List (List (List Measure)) :=
  if (cutBefore Measure.breaks ms).isEmpty then [[[]]]
  else cutBefore Part.startsPage (cutBefore Measure.breaks ms)

theorem pages_eq (p : Part) :
    p.pages = (pagesOf p.restatedMeasures).map (List.map fun measures => { p with measures }) := rfl

/-- What changes the systems and not their beginnings changes the systems of the pages. -/
theorem map_pagesOf {f : List Measure → List Measure} (empty : f [] = [])
    (page : ∀ run, Part.startsPage (f run) = Part.startsPage run) {ms ms' : List Measure}
    (cut : (cutBefore Measure.breaks ms).map f = cutBefore Measure.breaks ms') :
    (pagesOf ms).map (List.map f) = pagesOf ms' := by
  unfold pagesOf
  rw [← cut, List.isEmpty_map]
  split
  · rw [List.map_singleton, List.map_singleton, empty]
  · rw [cutBefore_map]
    simp only [page]

theorem map_tidied_pagesOf (ms : List Measure) :
    (pagesOf ms).map (List.map (List.map Measure.tidied)) = pagesOf (ms.map Measure.tidied) := by
  refine map_pagesOf rfl ?_ ?_
  · intro run
    cases run with
    | nil => rfl
    | cons m ms => rfl
  · exact (cutBefore_map Measure.breaks Measure.tidied ms).symm

theorem map_inQuarters_pagesOf (ms : List Measure) :
    (pagesOf ms).map (List.map fun run => (thread Measure.inQuarters none run).2) =
      pagesOf (thread (restarting Measure.breaks Measure.inQuarters none) none ms).2 := by
  refine map_pagesOf rfl ?_ ?_
  · intro run
    cases run with
    | nil => rfl
    | cons m ms => rfl
  · have keeps (d : Option Int) (m : Measure) : (m.inQuarters d).2.breaks = m.breaks := rfl
    exact map_thread_cutBefore keeps none ms

/-- A part without attributes that state nothing. -/
def Part.tidied (p : Part) : Part := { p with measures := p.measures.map Measure.tidied }

/-- Measures in quarters are restated as restated measures are put in quarters, up to attributes
that state nothing. -/
theorem map_tidied_restatedMeasures {p : Part} (ok : p.toQuarters.outcome = .ok ()) :
    p.toQuarters.part.restatedMeasures.map Measure.tidied =
      (thread (restarting Measure.breaks Measure.inQuarters none) none
        p.restatedMeasures).2.map Measure.tidied := by
  have same := inStep_restateQuarters.forall₂_systems (p := p) fun _ _ => trivial
  rw [p.flatMap_systems (f := fun ms => (thread Measure.inQuarters none ms).2) rfl,
    flatMap_thread_cutBefore, thread_restateQuarters] at same
  rw [restatedMeasures_eq p.toQuarters.part, Part.part_toQuarters ok]
  rwa [← List.forall₂_eq_eq_eq, List.forall₂_map_left_iff, List.forall₂_map_right_iff]

/-- What the systems of a part that can be converted are converted to. -/
theorem map_toQuarters_pages {p : Part} (ok : p.toQuarters.outcome = .ok ()) :
    p.pages.map (List.map fun system => system.toQuarters.part) =
      (pagesOf (thread (restarting Measure.breaks Measure.inQuarters none) none
        p.restatedMeasures).2).map (List.map fun measures => { p with measures }) := by
  have each : p.pages.map (List.map fun system => system.toQuarters.part) =
      p.pages.map (List.map fun system =>
        { system with measures := (thread Measure.inQuarters none system.measures).2 }) := by
    refine List.map_congr_left fun page hpage => List.map_congr_left fun system hsystem => ?_
    have mem : system ∈ p.systems := List.mem_flatten.mpr ⟨page, hpage, hsystem⟩
    exact Part.part_toQuarters (p.outcome_toQuarters_systems_iff.mp ok system mem)
  rw [each, ← map_inQuarters_pagesOf, pages_eq, List.map_map, List.map_map]
  refine List.map_congr_left fun page _ => ?_
  show List.map _ (List.map _ page) = List.map _ (List.map _ page)
  rw [List.map_map, List.map_map]
  rfl

theorem map_tidied_pages (p : Part) (pages : List (List (List Measure))) :
    (pages.map (List.map fun measures => { p with measures })).map (List.map Part.tidied) =
      (pages.map (List.map (List.map Measure.tidied))).map
        (List.map fun measures => { p with measures }) := by
  rw [List.map_map, List.map_map]
  refine List.map_congr_left fun page _ => ?_
  show List.map _ (List.map _ page) = List.map _ (List.map _ page)
  rw [List.map_map, List.map_map]
  rfl

/-- **Cutting a part commutes with the conversion of its durations.**  A part can be converted if
each of its systems can be, and then the systems of the part in quarters are the systems in
quarters, page by page, up to attributes that state nothing. -/
theorem toQuarters_pages (p : Part) :
    (p.toQuarters.outcome = .ok () ↔ ∀ system ∈ p.systems, system.toQuarters.outcome = .ok ()) ∧
      (p.toQuarters.outcome = .ok () →
        p.toQuarters.part.pages.map (List.map Part.tidied) =
          (p.pages.map (List.map fun system => system.toQuarters.part)).map
            (List.map Part.tidied)) := by
  refine ⟨p.outcome_toQuarters_systems_iff, ?_⟩
  intro ok
  rw [map_toQuarters_pages ok, map_tidied_pages, map_tidied_pagesOf,
    ← map_tidied_restatedMeasures ok, ← map_tidied_pagesOf, ← map_tidied_pages, pages_eq, Part.part_toQuarters ok]

/-- The second system lasts as long as the divisions of the first one say. -/
def Part.dividedOnce : Part where
  id := "P1"
  measures :=
    [{ number := 1
       elements :=
        [.attributes { divisions := some 2, time := some ⟨3, 4⟩ },
         .note { noteType := some .half, dots := 1, duration := some 6 }] },
     { number := 2, newPage := true, elements := [.forward 3, .backup 3] }]

theorem toQuarters_pages_dividedOnce :
    Part.dividedOnce.toQuarters.outcome = .ok () ∧
      (∀ system ∈ Part.dividedOnce.systems, system.toQuarters.outcome = .ok ()) ∧
      Part.dividedOnce.toQuarters.part.pages.map (List.map Part.tidied) =
        (Part.dividedOnce.pages.map (List.map fun system => system.toQuarters.part)).map
          (List.map Part.tidied) := by
  have ok : Part.dividedOnce.toQuarters.outcome = .ok () := rfl
  obtain ⟨each, pages⟩ := toQuarters_pages Part.dividedOnce
  exact ⟨ok, each.mp ok, pages ok⟩

end LinearScore
