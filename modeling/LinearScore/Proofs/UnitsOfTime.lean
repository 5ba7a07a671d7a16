import LinearScore.Proofs.TicksAndQuarters

/-!
# Units of time in the inference of alterations

An accidental is carried to the later notes of its measure, and which notes these are is found by
comparing sums of durations.  In a measure whose durations are all in one unit the comparisons come
out the same in quarters, so the alterations of such a part can be inferred before or after it is
converted.  Where divisions change between two durations of a measure, ticks of both kinds are added
up as they stand, and what is inferred from them is not what is inferred from quarters.

## Main definitions

* `Part.OneUnit`: all durations of a measure are under the same divisions

The main statement is `toQuarters_inferAlterations`.
-/

namespace LinearScore

variable {divisions : Option Int} {d : Int}

/-- All durations among some elements are under the same divisions. -/
def OneUnit (es : List (Element × InForce)) : Prop :=
  ∀ x ∈ es, ∀ y ∈ es, x.1.duration?.isSome → y.1.duration?.isSome → x.2.divisions = y.2.divisions

/-- All durations of a measure are under the same divisions, in every measure. -/
def Part.OneUnit (p : Part) : Prop := ∀ es ∈ p.inForce clearsUpTo, LinearScore.OneUnit es

instance (p : Part) : Decidable p.OneUnit :=
  inferInstanceAs (Decidable (∀ es ∈ p.inForce clearsUpTo, ∀ x ∈ es, ∀ y ∈ es,
    x.1.duration?.isSome → y.1.duration?.isSome → x.2.divisions = y.2.divisions))

/-! ## Elements in one unit -/

/-- All durations of elements are under the divisions `d`. -/
def InUnit (d : Int) (divisions : Option Int) : List Element → Prop
  | [] => True
  | e :: es => (e.duration?.isSome → divisions = some d) ∧ InUnit d (e.divisions?.or divisions) es

theorem inUnit_flat (es : List Element) :
    InUnit d divisions (es.map Element.flat) ↔ InUnit d divisions es := by
  induction es generalizing divisions with
  | nil => exact Iff.rfl
  | cons e es ih =>
    rw [List.map_cons, InUnit, InUnit, Element.duration?_flat, Element.divisions?_flat, ih]

theorem inUnit_iff (c : InForce) (es : List Element) :
    InUnit d c.divisions es ↔
      ∀ x ∈ c.along clearsUpTo es, x.1.duration?.isSome → x.2.divisions = some d := by
  induction es generalizing c with
  | nil => simp [InUnit, InForce.along]
  | cons e es ih =>
    have timed (e : Element) : ((e.duration?.isSome → c.divisions = some d) ∧
        InUnit d c.divisions es) ↔ ∀ x ∈ (e, c) :: c.along clearsUpTo es,
          x.1.duration?.isSome → x.2.divisions = some d := by
      rw [List.forall_mem_cons, ih]
    cases e with
    | attributes a =>
      have untimed : (Element.attributes a).duration?.isSome → c.divisions = some d :=
        fun timed => absurd timed Bool.false_ne_true
      rw [InUnit, and_iff_right untimed]
      exact ih (c.afterAttributes clearsUpTo a)
    | note n => exact timed _
    | backup t => exact timed _
    | forward t => exact timed _

/-- Divisions in force are among those that were known and those that are declared. -/
theorem positive_along {c : InForce} {es : List Element} (known : ∀ d ∈ c.divisions, 0 < d)
    (declared : ∀ e ∈ es, ∀ d ∈ e.divisions?, 0 < d) :
    ∀ x ∈ c.along clearsUpTo es, ∀ d ∈ x.2.divisions, 0 < d := by
  induction es generalizing c with
  | nil => exact List.forall_mem_nil _
  | cons e es ih =>
    obtain ⟨here, later⟩ := List.forall_mem_cons.mp declared
    cases e with
    | attributes a =>
      refine ih (fun d hd => ?_) later
      rcases Option.or_eq_some_iff.mp hd with hd | ⟨_, hd⟩
      · exact here d hd
      · exact known d hd
    | note n => exact List.forall_mem_cons.mpr ⟨known, ih known later⟩
    | backup t => exact List.forall_mem_cons.mpr ⟨known, ih known later⟩
    | forward t => exact List.forall_mem_cons.mpr ⟨known, ih known later⟩

/-- The divisions in force behind elements are those that are known behind them. -/
theorem divisions_foldl_after (c : InForce) (es : List Element) :
    (es.foldl (InForce.after clearsUpTo) c).divisions = divisionsBehind c.divisions es := by
  induction es generalizing c with
  | nil => rfl
  | cons e es ih =>
    cases e with
    | attributes a => exact ih _
    | note n => exact ih c
    | backup t => exact ih c
    | forward t => exact ih c

/-- Elements that can be converted and are under the same divisions are under positive ones. -/
theorem exists_inUnit {c : InForce} {es : List Element} (known : ∀ d ∈ c.divisions, 0 < d)
    (divide : AllDivide c.divisions es) (one : OneUnit (c.along clearsUpTo es)) :
    ∃ d, 0 < d ∧ InUnit d c.divisions es := by
  obtain ⟨declared, timed⟩ := (allDivide_iff c es).mp divide
  by_cases some : ∃ x ∈ c.along clearsUpTo es, x.1.duration?.isSome
  · obtain ⟨x, hx, long⟩ := some
    obtain ⟨d, hd⟩ := Option.isSome_iff_exists.mp (timed x hx long)
    refine ⟨d, positive_along known declared x hx d hd, (inUnit_iff c es).mpr ?_⟩
    intro y hy long'
    rw [one y hy x hx long' long, hd]
  · -- without durations any unit will do
    refine ⟨1, Int.one_pos, (inUnit_iff c es).mpr fun x hx long => ?_⟩
    exact absurd ⟨x, hx, long⟩ some

/-- Elements in one unit are converted one by one. -/
theorem inQuarters_of_inUnit {es : List Element} (unit : InUnit d divisions es) :
    inQuarters divisions es = es.map (Element.inQuarters (some d)) := by
  induction es generalizing divisions with
  | nil => rfl
  | cons e es ih =>
    obtain ⟨here, later⟩ := unit
    have first : e.inQuarters divisions = e.inQuarters (some d) := by
      by_cases long : e.duration?.isSome
      · rw [here long]
      · -- what has no duration is the same in every unit
        cases e with
        | attributes a => rfl
        | note n =>
          obtain ⟨printed, grace, chord, content, duration⟩ := n
          cases duration with
          | none => cases divisions <;> rfl
          | some t => exact absurd rfl long
        | backup t => exact absurd rfl long
        | forward t => exact absurd rfl long
    rw [inQuarters, first, ih later, List.map_cons]

/-! ## Measures in one unit -/

/-- The step that takes divisions out of attributes. -/
def Attributes.undivideStep (_ : Unit) (a : Attributes) : Unit × Attributes := ((), a.undivided)

/-- The conversion in one unit is a change of durations and a pass over the attributes. -/
theorem map_inQuarters_eq (m : Measure) :
    { m with elements := m.elements.map (Element.inQuarters (some d)) } =
      (Measure.pass (onAttributes Attributes.undivideStep) ()
        (m.mapDurations (· * (d : Rat)⁻¹))).2 := by
  have step (e : Element) : e.inQuarters (some d) =
      (onAttributes Attributes.undivideStep () (e.mapDuration (· * (d : Rat)⁻¹))).2 := by
    cases e with
    | attributes a => rfl
    | note n =>
      show Element.note { n with duration := n.duration.map (· / (d : Rat)) } = _
      simp only [div_eq_mul_inv]
      rfl
    | backup t => exact congrArg Element.backup (div_eq_mul_inv ..)
    | forward t => exact congrArg Element.forward (div_eq_mul_inv ..)
  have passed (es : List Element) : (thread (onAttributes Attributes.undivideStep) () es).2 =
      es.map fun e => (onAttributes Attributes.undivideStep () e).2 := by
    induction es with
    | nil => rfl
    | cons e es ih => exact congrArg (_ :: ·) ih
  have elements : m.elements.map (Element.inQuarters (some d)) =
      (thread (onAttributes Attributes.undivideStep) ()
        (m.elements.map (Element.mapDuration (· * (d : Rat)⁻¹)))).2 := by
    rw [passed, List.map_map]
    exact List.map_congr_left fun e _ => step e
  exact congrArg (fun elements => { m with elements }) elements

/-- In one unit it does not matter whether the alterations of a measure are inferred first. -/
theorem measure_inQuarters (positive : 0 < d) (s : AlterationState) (m : Measure) :
    s.measure { m with elements := m.elements.map (Element.inQuarters (some d)) } =
      ((s.measure m).1, { (s.measure m).2 with
        elements := (s.measure m).2.elements.map (Element.inQuarters (some d)) }) := by
  have unit : (0 : Rat) < (d : Rat)⁻¹ := inv_pos.mpr (by exact_mod_cast positive)
  have scaled : s.measure (m.mapDurations (· * (d : Rat)⁻¹)) =
      ((s.measure m).1, (s.measure m).2.mapDurations (· * (d : Rat)⁻¹)) :=
    AlterationState.measure_scaled unit s m
  have commuting : Commuting AlterationState.measure
      (Measure.pass (onAttributes Attributes.undivideStep)) := commuting_measure fun _ _ => rfl
  have state := commuting.left s () (m.mapDurations (· * (d : Rat)⁻¹))
  have result := commuting.both s () (m.mapDurations (· * (d : Rat)⁻¹))
  rw [scaled, ← map_inQuarters_eq] at state result
  rw [← map_inQuarters_eq] at result
  exact Prod.ext state result

/-- A measure in one unit is converted element by element. -/
theorem Measure.inQuarters_of_inUnit {m : Measure} (unit : InUnit d divisions m.elements) :
    m.inQuarters divisions = (divisionsBehind divisions m.elements,
      { m with elements := m.elements.map (Element.inQuarters (some d)) }) := by
  rw [Measure.inQuarters, LinearScore.inQuarters_of_inUnit unit]

/-- The same of measures that are each in one unit, before and behind the inference. -/
theorem thread_measure_inQuarters {c : InForce} {s : AlterationState} {ms : List Measure}
    (known : ∀ d ∈ c.divisions, 0 < d) (divide : AllDivide c.divisions (ms.flatMap (·.elements)))
    (one : ∀ es ∈ (thread (InForce.measure clearsUpTo) c ms).2, OneUnit es)
    (flat : (thread AlterationState.measure s ms).2.map Measure.flat = ms.map Measure.flat) :
    (thread AlterationState.measure s (thread Measure.inQuarters c.divisions ms).2).2 =
      (thread Measure.inQuarters c.divisions (thread AlterationState.measure s ms).2).2 := by
  induction ms generalizing c s with
  | nil => rfl
  | cons m ms ih =>
    rw [List.flatMap_cons, allDivide_append] at divide
    rw [thread_cons, List.forall_mem_cons] at one
    rw [thread_cons, List.map_cons, List.map_cons] at flat
    obtain ⟨same, later⟩ := List.cons.inj flat
    obtain ⟨d, positive, unit⟩ := exists_inUnit known divide.1 one.1
    -- what is inferred is in the same unit, and leaves the same divisions
    have elements : (s.measure m).2.elements.map Element.flat = m.elements.map Element.flat :=
      congrArg Measure.elements same
    have unit' : InUnit d c.divisions (s.measure m).2.elements := by
      rw [← inUnit_flat, elements, inUnit_flat]
      exact unit
    have behind : divisionsBehind c.divisions (s.measure m).2.elements =
        divisionsBehind c.divisions m.elements := by
      rw [← divisionsBehind_flat, elements, divisionsBehind_flat]
    have divisions : divisionsBehind c.divisions m.elements =
        (c.measure clearsUpTo m).1.divisions := (divisions_foldl_after c m.elements).symm
    have known' : ∀ d ∈ (c.measure clearsUpTo m).1.divisions, 0 < d := by
      rw [← divisions]
      exact positive_divisionsBehind known ((allDivide_iff c m.elements).mp divide.1).1
    rw [thread_cons, thread_cons, thread_cons, thread_cons, Measure.inQuarters_of_inUnit unit,
      Measure.inQuarters_of_inUnit unit', behind, measure_inQuarters positive, divisions,
      ih known' (divisions ▸ divide.2) one.2 later]

theorem durations_flat (p : Part) : p.flat.durations = p.durations := by
  rw [Part.durations, elements_flat, List.filterMap_map, Part.durations]
  exact congrArg (List.filterMap · p.elements) (funext Element.duration?_flat)

section Converted

variable {p : Part} (ok : p.toQuarters.outcome = .ok ())
include ok

theorem outcome_toQuarters_inferAlterations :
    p.inferAlterations.toQuarters.outcome = .ok () := by
  rw [← outcome_toQuarters_flat, inferAlterations_keeps, outcome_toQuarters_flat, ok]

theorem flat_toQuarters_inferAlterations :
    p.inferAlterations.toQuarters.part.flat = p.toQuarters.part.inferAlterations.flat := by
  rw [← toQuarters_flat (outcome_toQuarters_inferAlterations ok), inferAlterations_keeps,
    toQuarters_flat ok, inferAlterations_keeps]

theorem toQuarters_inferAlterations_of_oneUnit (one : p.OneUnit) :
    p.inferAlterations.toQuarters.part = p.toQuarters.part.inferAlterations := by
  have measures := thread_measure_inQuarters (c := {}) (fun _ hd => nomatch hd)
    (p.outcome_toQuarters_eq_ok_iff.mp ok) one (flat_inferAlterations p)
  rw [Part.part_toQuarters (outcome_toQuarters_inferAlterations ok), Part.part_toQuarters ok]
  exact congrArg (fun measures => { p with measures }) measures.symm

/-- The quotients are the same with the alterations inferred. -/
theorem fits_toQuarters_inferAlterations (fits : (Machine.toQuarters p).fits = true) :
    (Machine.toQuarters p.inferAlterations).fits = true := by
  have ok' := outcome_toQuarters_inferAlterations ok
  have durations : p.inferAlterations.toQuarters.part.durations = p.toQuarters.part.durations := by
    rw [← durations_flat, flat_toQuarters_inferAlterations ok, inferAlterations_keeps,
      durations_flat]
  rw [Machine.fits_toQuarters_iff ok, ← elements_toQuarters ok] at fits
  rw [Machine.fits_toQuarters_iff ok', ← elements_toQuarters ok']
  show ∀ q ∈ p.inferAlterations.toQuarters.part.durations, Machine.holdsFraction q = true
  rw [durations]
  exact fits

end Converted

/-- **Alterations can be inferred from ticks or from quarters.**  A part that can be converted can
be converted with its alterations inferred, and up to alterations it does not matter which is done
first.  If all durations of each measure are in one unit, it does not matter for alterations
either.  This is so for what is arrived at, too, and where the part is put into quarters, it is with
its alterations inferred. -/
theorem toQuarters_inferAlterations {p : Part} (ok : p.toQuarters.outcome = .ok ()) :
    p.inferAlterations.toQuarters.outcome = .ok () ∧
      p.inferAlterations.toQuarters.part.flat = p.toQuarters.part.inferAlterations.flat ∧
      (p.OneUnit →
        p.inferAlterations.toQuarters.part = p.toQuarters.part.inferAlterations) ∧
      ∀ c ∈ (Machine.toQuarters p).outcome, ∀ q ∈ (Machine.inferAlterations p).outcome,
        ∃ c', (Machine.toQuarters q).outcome = some c' ∧ c'.outcome = .ok () ∧
          ∀ r ∈ (Machine.inferAlterations c.part).outcome,
            c'.part.flat = r.flat ∧ (p.OneUnit → c'.part = r) := by
  have converted := outcome_toQuarters_inferAlterations ok
  have flat := flat_toQuarters_inferAlterations ok
  have same := toQuarters_inferAlterations_of_oneUnit ok
  refine ⟨converted, flat, same, fun c hc q hq => ?_⟩
  obtain ⟨fits, rfl⟩ := Checked.outcome_eq_some_iff.mp hc
  obtain ⟨-, rfl⟩ := Checked.outcome_eq_some_iff.mp hq
  rw [Machine.value_inferAlterations, Machine.value_toQuarters,
    Checked.outcome_of_fits (fits_toQuarters_inferAlterations ok fits), Machine.value_toQuarters]
  refine ⟨_, rfl, converted, fun r hr => ?_⟩
  obtain ⟨-, rfl⟩ := Checked.outcome_eq_some_iff.mp hr
  rw [Machine.value_inferAlterations]
  exact ⟨flat, same⟩

/-- Divisions that change between two measures, an accidental that is carried over a backup, and a
grace note where the next divisions are already declared. -/
def Part.unitByMeasure : Part where
  id := "P1"
  measures :=
    [{ number := 1
       elements :=
        [.attributes { divisions := some 2, key := some ⟨1⟩ },
         .note { content := .pitch ⟨.g, 4, 0⟩, duration := some 1, accidental := some .flat },
         .note { content := .pitch ⟨.g, 4, 0⟩, duration := some 3 }, .backup 2,
         .note { content := .pitch ⟨.g, 4, 0⟩, duration := some 2 },
         .attributes { divisions := some 6 },
         .note { content := .pitch ⟨.g, 4, 0⟩, grace := some ⟨true⟩ }] },
     { number := 2
       elements :=
        [.note { content := .pitch ⟨.f, 4, 0⟩, duration := some 4, chord := true },
         .note { content := .pitch ⟨.g, 4, 0⟩, duration := some 4 }] }]

theorem toQuarters_inferAlterations_unitByMeasure :
    Part.unitByMeasure.toQuarters.outcome = .ok () ∧ Part.unitByMeasure.OneUnit ∧
      Part.unitByMeasure.inferAlterations.toQuarters.outcome = .ok () ∧
      Part.unitByMeasure.inferAlterations.toQuarters.part =
        Part.unitByMeasure.toQuarters.part.inferAlterations ∧
      ∃ c q c', (Machine.toQuarters Part.unitByMeasure).outcome = some c ∧
        (Machine.inferAlterations Part.unitByMeasure).outcome = some q ∧
        (Machine.toQuarters q).outcome = some c' ∧
        (Machine.inferAlterations c.part).outcome = some c'.part := by
  have ok : Part.unitByMeasure.toQuarters.outcome = .ok () := rfl
  have one : Part.unitByMeasure.OneUnit := by decide +kernel
  have converted : (Machine.toQuarters Part.unitByMeasure).outcome =
      some Part.unitByMeasure.toQuarters := Checked.outcome_of_fits (by decide +kernel)
  have inferred : (Machine.inferAlterations Part.unitByMeasure).outcome =
      some Part.unitByMeasure.inferAlterations := Checked.outcome_of_fits (by decide +kernel)
  have last : (Machine.inferAlterations Part.unitByMeasure.toQuarters.part).outcome =
      some Part.unitByMeasure.toQuarters.part.inferAlterations :=
    Checked.outcome_of_fits (by decide +kernel)
  obtain ⟨ok', -, same, arrives⟩ := toQuarters_inferAlterations ok
  obtain ⟨c', converted', -, agrees⟩ := arrives _ converted _ inferred
  have parts := (agrees _ last).2 one
  exact ⟨ok, one, ok', same one, _, _, c', converted, inferred, converted', parts ▸ last⟩

/-- A sharp on the first quarter under one division, and a note of the same quarter under two. -/
def Part.unitWithinMeasure : Part where
  id := "P1"
  measures :=
    [{ number := 1
       elements :=
        [.attributes { divisions := some 1 },
         .note { content := .pitch ⟨.f, 4, 0⟩, duration := some 1, noteType := some .quarter,
                 accidental := some .sharp },
         .attributes { divisions := some 2 }, .backup 2,
         .note { content := .pitch ⟨.f, 4, 0⟩, duration := some 2, noteType := some .quarter }] }]

/-- In quarters the second note starts with the sharp and is altered by it; in ticks it seems to
start before. -/
theorem unitWithinMeasure_differs :
    Part.unitWithinMeasure.toQuarters.outcome = .ok () ∧
      Part.unitWithinMeasure.inferAlterations.toQuarters.part ≠
        Part.unitWithinMeasure.toQuarters.part.inferAlterations := by
  have inferred : ((Part.unitWithinMeasure.inferAlterations.toQuarters.part.measures.flatMap
      Measure.notes).filterMap Note.pitch?).map (·.alter) = [1, 0] := by decide +kernel
  have converted : ((Part.unitWithinMeasure.toQuarters.part.inferAlterations.measures.flatMap
      Measure.notes).filterMap Note.pitch?).map (·.alter) = [1, 1] := by decide +kernel
  refine ⟨rfl, fun same => ?_⟩
  rw [same, converted] at inferred
  exact absurd inferred (by decide)

end LinearScore
