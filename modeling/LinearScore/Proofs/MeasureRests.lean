import Mathlib.Data.List.DropRight
import LinearScore.Proofs.HeldEncoding
import LinearScore.Proofs.NearestDivisions
import LinearScore.Proofs.Writing

/-!
# Rests for whole measures

A rest that stands for a whole measure is compared with the length of a measure in ticks.  That
length is fixed where the time signature stands, in the divisions that are in force there, and is
not taken anew when other divisions are declared.  So the comparison is exact as long as the
divisions behind the time signature stay in force, and behind other divisions a rest of the right
length is reported.

## Main definitions

* `Part.findings`: the elements of each measure with the faults that are reported of them
* `Part.reported`: these faults as the diagnostics of the part
* `lastPositive`, `lastTime`: the divisions and the time signature in force behind elements
* `throughTime`: elements up to the time signature in force
* `ReportsRest`: the length of a rest for a measure is reported

The main statement is `reportsRest_iff`.
-/

namespace LinearScore

namespace EncodingState

/-- The state behind an element, and the element with the faults that are reported of it. -/
def finding (s : EncodingState) (e : Element) : EncodingState × (Element × List ScoreFault) :=
  (s.after e, (e, faults (s.emissions e)))

/-- The state behind a measure, and its elements with the faults that are reported of them. -/
def findings (s : EncodingState) (m : Measure) :
    EncodingState × List (Element × List ScoreFault) :=
  thread finding s.startMeasure m.elements

end EncodingState

/-- The faults of the elements of a measure as diagnostics, with the number of the measure. -/
def findingDiagnostics (id : String) (m : Measure) (found : List (Element × List ScoreFault)) :
    List Diagnostic :=
  found.flatMap fun x => x.2.map fun f => ⟨.score id m.number f, none⟩

namespace Part

/-- The elements of each measure with the faults that are reported of them. -/
def findings (p : Part) : List (List (Element × List ScoreFault)) :=
  (thread EncodingState.findings {} p.measures).2

/-- The `j`-th element of the `k`-th measure with the faults that are reported of it. -/
def finding? (p : Part) (k j : Nat) : Option (Element × List ScoreFault) :=
  p.findings[k]?.bind (·[j]?)

/-- The faults of all elements as diagnostics. -/
def reported (p : Part) : List Diagnostic :=
  (List.zipWith (findingDiagnostics p.id) p.measures p.findings).flatten

end Part

/-- The time signature that an element states, if any. -/
def Element.time? (e : Element) : Option TimeSignature := e.attributes?.bind (·.time)

/-- The time signature in force behind elements. -/
def lastTime (es : List Element) : Option TimeSignature := (es.filterMap Element.time?).getLast?

/-- The divisions in force behind elements; only positive ones count. -/
def lastPositive (es : List Element) : Option Int :=
  ((es.filterMap Element.divisions?).filter (0 < ·)).getLast?

/-- The elements up to the one that states the time signature in force. -/
def throughTime (es : List Element) : List Element := es.rdropWhile fun e => e.time?.isNone

/-- The length in ticks that a measure has behind elements: that of the time signature in force, in
the divisions that are in force where it stands. -/
def fixedLength (es : List Element) : Option Rat :=
  (lastTime es).bind fun time =>
    (lastPositive (throughTime es)).map fun d : Int => measureLength time * (d : Rat)

/-- The length of a rest for a measure is among the faults. -/
def ReportsRest (fs : List ScoreFault) : Prop :=
  ∃ expected actual, .measureRestLength expected actual ∈ fs

/-! ## What is reported, element by element -/

theorem thread_finding_state (s : EncodingState) (es : List Element) :
    (thread EncodingState.finding s es).1 = es.foldl EncodingState.after s := by
  induction es generalizing s with
  | nil => rfl
  | cons e es ih => exact ih _

theorem faults_elementEmissions (s : EncodingState) (es : List Element) :
    faults (elementEmissions s es) = (thread EncodingState.finding s es).2.flatMap (·.2) := by
  induction es generalizing s with
  | nil => rfl
  | cons e es ih =>
    rw [elementEmissions, faults_append, ih, thread_cons, List.flatMap_cons]
    rfl

theorem diagnostics_encodeMeasures (id : String) (s : EncodingState) (ms : List Measure) :
    (encodeMeasures id s ms).diagnostics =
      (List.zipWith (findingDiagnostics id) ms (thread EncodingState.findings s ms).2).flatten := by
  induction ms generalizing s with
  | nil => rfl
  | cons m ms ih =>
    have here : (encodeMeasure id s m).diagnostics = findingDiagnostics id m (s.findings m).2 := by
      show (faults (elementEmissions s.startMeasure m.elements)).map _ = _
      rw [faults_elementEmissions, List.map_flatMap]
      rfl
    have next : (s.findings m).1 = s.afterMeasure m := thread_finding_state _ _
    rw [encodeMeasures, Reported.diagnostics_bind, Reported.diagnostics_bind,
      Reported.diagnostics_pure, List.append_nil, here, ih, thread_cons, List.zipWith_cons_cons,
      List.flatten_cons, next]

/-- The diagnostics of a part are the faults of its elements. -/
theorem diagnostics_encode (p : Part) : p.encode.diagnostics = p.reported := by
  rw [Part.encode, Reported.diagnostics_bind, Reported.diagnostics_pure, List.append_nil]
  exact diagnostics_encodeMeasures p.id {} p.measures

/-! ## What is in force -/

theorem lastTime_concat (es : List Element) (e : Element) :
    lastTime (es ++ [e]) = e.time?.or (lastTime es) := by
  rw [lastTime, lastTime, List.filterMap_append]
  cases time : e.time? with
  | none => simp [time]
  | some time' => simp [time]

theorem lastPositive_concat (es : List Element) (e : Element) :
    lastPositive (es ++ [e]) = (e.divisions?.filter (0 < ·)).or (lastPositive es) := by
  rw [lastPositive, lastPositive, List.filterMap_append, List.filter_append]
  cases declared : e.divisions? with
  | none => simp [declared]
  | some d => by_cases positive : 0 < d <;> simp [declared, positive, Option.filter]

theorem throughTime_concat (es : List Element) (e : Element) :
    throughTime (es ++ [e]) = if e.time?.isNone then throughTime es else es ++ [e] :=
  List.rdropWhile_concat ..

/-- What the writer knows of the divisions and of the length of a measure is what the elements in
front say. -/
structure EncodingState.Follows (s : EncodingState) (es : List Element) : Prop where
  divisions : s.divisions = lastPositive es
  fullMeasure : s.fullMeasure = fixedLength es

namespace EncodingState.Follows

variable {s : EncodingState} {es : List Element}

theorem empty : ({} : EncodingState).Follows [] := ⟨rfl, rfl⟩

theorem startMeasure (h : s.Follows es) : s.startMeasure.Follows es :=
  ⟨h.divisions, h.fullMeasure⟩

/-- Behind an element that states neither divisions nor a time signature all is as before. -/
theorem plain {s' : EncodingState} {e : Element} (h : s.Follows es)
    (undivided : e.divisions? = none) (untimed : e.time? = none)
    (divisions : s'.divisions = s.divisions) (fullMeasure : s'.fullMeasure = s.fullMeasure) :
    s'.Follows (es ++ [e]) where
  divisions := by
    rw [divisions, h.divisions, lastPositive_concat, undivided]
    rfl
  fullMeasure := by
    rw [fullMeasure, h.fullMeasure, fixedLength, fixedLength, lastTime_concat, throughTime_concat,
      untimed]
    rfl

theorem afterAttributes (h : s.Follows es) (a : Attributes) :
    (s.afterAttributes a).Follows (es ++ [.attributes a]) := by
  have divisions : s.divisionsAfter a = lastPositive (es ++ [.attributes a]) := by
    rw [lastPositive_concat, ← h.divisions, divisionsAfter]
    show _ = (a.divisions.filter (0 < ·)).or s.divisions
    cases a.divisions with
    | none => rfl
    | some d => by_cases positive : 0 < d <;> simp [positive, Option.filter]
  refine ⟨divisions, ?_⟩
  show s.fullMeasureAfter a = _
  rw [fixedLength, lastTime_concat, throughTime_concat, fullMeasureAfter, divisions]
  show _ = (a.time.or _).bind _
  cases time : a.time with
  | none =>
    rw [h.fullMeasure, Option.none_or, if_pos (by simp [Element.time?, Element.attributes?, time])]
    rfl
  | some time =>
    rw [Option.some_or, if_neg (by simp [Element.time?, Element.attributes?, time])]
    cases lastPositive (es ++ [.attributes a]) <;> rfl

theorem after (h : s.Follows es) (e : Element) : (s.after e).Follows (es ++ [e]) := by
  cases e with
  | attributes a => exact h.afterAttributes a
  | note n => exact h.plain rfl rfl rfl rfl
  | backup d => exact h.plain rfl rfl rfl rfl
  | forward d => exact h.plain rfl rfl rfl rfl

theorem finding (h : s.Follows es) (fs : List Element) :
    (thread EncodingState.finding s fs).1.Follows (es ++ fs) := by
  induction fs generalizing s es with
  | nil => rwa [List.append_nil]
  | cons f fs ih =>
    rw [List.append_cons]
    exact ih (h.after f)

theorem findings (h : s.Follows es) (ms : List Measure) :
    (thread EncodingState.findings s ms).1.Follows (es ++ ms.flatMap (·.elements)) := by
  induction ms generalizing s es with
  | nil => rwa [List.flatMap_nil, List.append_nil]
  | cons m ms ih =>
    rw [List.flatMap_cons, ← List.append_assoc]
    exact ih (h.startMeasure.finding m.elements)

end EncodingState.Follows

/-- The faults of an element are those that it has behind the elements in front of it. -/
theorem exists_follows_of_finding? {p : Part} {k j : Nat} {e : Element} {fs : List ScoreFault}
    (h : p.finding? k j = some (e, fs)) :
    ∃ s : EncodingState, s.Follows (p.inFront k j) ∧ fs = faults (s.emissions e) := by
  rw [Part.finding?, Part.findings, getElem?_thread] at h
  cases hm : p.measures[k]? with
  | none => simp [hm] at h
  | some m =>
    rw [hm, Option.map_some, Option.bind_some, EncodingState.findings, getElem?_thread] at h
    obtain ⟨e', -, eq⟩ := Option.map_eq_some_iff.mp h
    obtain ⟨rfl, rfl⟩ := Prod.mk.inj eq
    refine ⟨_, ?_, rfl⟩
    rw [Part.inFront, hm]
    exact (EncodingState.Follows.empty.findings (p.measures.take k)).startMeasure.finding _

/-! ## The faults of a note -/

section Emissions

variable {f : ScoreFault}

theorem fault_notMem_emitIf (condition : Bool) (t : Terminal) :
    Emission.fault f ∉ emitIf condition t := by
  unfold emitIf
  split <;> simp

theorem fault_notMem_emitSome {α : Type} (build : α → Terminal) (a : Option α) :
    Emission.fault f ∉ emitSome build a := by
  cases a <;> simp [emitSome]

theorem fault_notMem_emitChanged {α : Type} [DecidableEq α] (build : α → Terminal)
    (old new : Option α) : Emission.fault f ∉ emitChanged build old new := by
  unfold emitChanged
  split
  · split <;> simp
  · simp

theorem mem_faults_of_ne {es : List Emission} (inside : ∀ t, f ≠ .outsideVocabulary t) :
    f ∈ faults es ↔ .fault f ∈ es := by
  rw [faults, List.mem_filterMap]
  constructor
  · rintro ⟨e, mem, eq⟩
    cases e with
    | fault g =>
      cases eq
      exact mem
    | token t =>
      rw [Emission.fault?] at eq
      split at eq
      · cases eq
      · exact absurd (Option.some.inj eq).symm (inside t)
  · exact fun mem => ⟨_, mem, rfl⟩

theorem fault_mem_faultIf {condition : Bool} {g : ScoreFault} :
    Emission.fault f ∈ faultIf condition g ↔ condition = true ∧ f = g := by
  unfold faultIf
  cases condition <;> simp

end Emissions

section Note

variable (s : EncodingState) (n : Note) {expected : Option Rat} {actual : Rat}

theorem restFault_notMem_leadingEmissions :
    Emission.fault (.measureRestLength expected actual) ∉ s.leadingEmissions n := by
  have grace : Emission.fault (.measureRestLength expected actual) ∉ graceEmissions n.grace := by
    cases n.grace <;> simp [graceEmissions, fault_notMem_emitIf]
  have content :
      Emission.fault (.measureRestLength expected actual) ∉ contentEmissions n.content := by
    unfold contentEmissions
    split
    · simp
    · split <;> simp
  simp [EncodingState.leadingEmissions, fault_notMem_emitIf, fault_notMem_emitChanged, grace,
    content]

theorem restFault_notMem_rootEmissions :
    Emission.fault (.measureRestLength expected actual) ∉ rootEmissions n := by
  unfold rootEmissions
  split
  · simp
  · split <;> simp

theorem restFault_notMem_trailingEmissions :
    Emission.fault (.measureRestLength expected actual) ∉ s.trailingEmissions n := by
  simp [EncodingState.trailingEmissions, staffEmissions, markingEmissions, fault_notMem_emitIf,
    fault_notMem_emitSome, fault_notMem_emitChanged, fault_mem_faultIf]

theorem restFault_notMem_chordEmissions (sticky : EncodingSticky) :
    Emission.fault (.measureRestLength expected actual) ∉ chordEmissions sticky n := by
  unfold chordEmissions
  split
  · split <;> simp [fault_mem_faultIf]
  · simp

/-- Among the emissions of a note only those of its duration say that a rest is too long or too
short. -/
theorem restFault_mem_noteEmissions_iff :
    Emission.fault (.measureRestLength expected actual) ∈ s.noteEmissions n ↔
      .fault (.measureRestLength expected actual) ∈
        durationEmissions s.divisions s.fullMeasure n := by
  simp [EncodingState.noteEmissions, EncodingState.lengthEmissions, fault_mem_faultIf,
    restFault_notMem_leadingEmissions, restFault_notMem_rootEmissions,
    restFault_notMem_trailingEmissions, restFault_notMem_chordEmissions]

variable {s n}

/-- A rest for a measure is reported if its duration is not the length that the writer has fixed. -/
theorem reportsRest_noteEmissions_iff {duration : Rat} (rest : n.isMeasureRest = true)
    (lasts : n.duration = some duration) :
    ReportsRest (faults (s.noteEmissions n)) ↔ s.fullMeasure ≠ some duration := by
  have durations : durationEmissions s.divisions s.fullMeasure n =
      faultIf (s.fullMeasure ≠ some duration) (.measureRestLength s.fullMeasure duration) := by
    rw [durationEmissions, lasts]
    exact if_pos rest
  have mem (expected : Option Rat) (actual : Rat) :
      .measureRestLength expected actual ∈ faults (s.noteEmissions n) ↔
        s.fullMeasure ≠ some duration ∧ expected = s.fullMeasure ∧ actual = duration := by
    have inside (t : Terminal) :
        ScoreFault.measureRestLength expected actual ≠ .outsideVocabulary t := by
      intro eq
      cases eq
    rw [mem_faults_of_ne inside, restFault_mem_noteEmissions_iff, durations, fault_mem_faultIf,
      decide_eq_true_iff, ScoreFault.measureRestLength.injEq]
  constructor
  · rintro ⟨expected, actual, reported⟩
    exact ((mem expected actual).mp reported).1
  · exact fun differs => ⟨_, _, (mem _ _).mpr ⟨differs, rfl, rfl⟩⟩

end Note

/-! ## Rests of a part -/

/-- **The check of a rest that stands for a whole measure.**  The diagnostics of a part are the
faults of its elements, and the rest is among these exactly if its duration is not the length that
is fixed where the time signature stands.  So it is reported exactly if it does not last a measure
in the divisions in force, as long as these are those behind the time signature.  Behind other
divisions, a rest of just that length is reported, unless a measure has no length at all.  All this
is reported where the part is written to the end, as it is if its numbers are held. -/
theorem reportsRest_iff {p : Part} {k j : Nat} {n : Note} {fs : List ScoreFault}
    {duration : Rat} {d : Int} {time : TimeSignature}
    (found : p.finding? k j = some (.note n, fs)) (rest : n.isMeasureRest = true)
    (lasts : n.duration = some duration) (divided : lastPositive (p.inFront k j) = some d)
    (timed : lastTime (p.inFront k j) = some time) :
    p.encode.diagnostics = p.reported ∧
      (ReportsRest fs ↔ fixedLength (p.inFront k j) ≠ some duration) ∧
      (lastPositive (throughTime (p.inFront k j)) = lastPositive (p.inFront k j) →
        (ReportsRest fs ↔ duration ≠ measureLength time * (d : Rat))) ∧
      (lastPositive (throughTime (p.inFront k j)) ≠ lastPositive (p.inFront k j) →
        measureLength time ≠ 0 → duration = measureLength time * (d : Rat) → ReportsRest fs) ∧
      (∀ texts reports, p.encode.outcome = some (texts, reports) → reports = p.reported) ∧
      ∀ common, p.Held common → p.encode.outcome.isSome = true := by
  obtain ⟨s, follows, rfl⟩ := exists_follows_of_finding? found
  have reports : ReportsRest (faults (s.emissions (.note n))) ↔
      fixedLength (p.inFront k j) ≠ some duration := by
    rw [← follows.fullMeasure]
    exact reportsRest_noteEmissions_iff rest lasts
  have fixed : fixedLength (p.inFront k j) =
      (lastPositive (throughTime (p.inFront k j))).map fun d : Int =>
        measureLength time * (d : Rat) := by
    rw [fixedLength, timed, Option.bind_some]
  refine ⟨diagnostics_encode p, reports, fun same => ?_, fun other long right => ?_,
    fun texts found written => ?_, fun common held => ?_⟩
  · rw [reports, fixed, same, divided, Option.map_some, Ne, Option.some.injEq, eq_comm]
  · rw [reports, fixed, right]
    intro equal
    obtain ⟨d', hd', eq⟩ := Option.map_eq_some_iff.mp equal
    have divisions : (d' : Rat) = d := mul_left_cancel₀ long eq
    exact other (by rw [hd', divided, Int.cast_injective divisions])
  · obtain ⟨-, -, rfl⟩ := Reported.outcome_eq_some_iff.mp written
    exact diagnostics_encode p
  · rw [Reported.outcome_of_fits held.fits_encode]
    rfl

/-- A rest that stands for a measure. -/
def Note.fullRest (duration : Rat) : Note := { content := .rest true, duration := some duration }

/-- A measure of four quarters, in one tick for each quarter and then in two. -/
def Part.finerTicks : Part where
  id := "P1"
  measures :=
    [{ number := 1
       elements :=
         [.attributes { divisions := some 1, time := some ⟨4, 4⟩ }, .note (.fullRest 4)] },
     { number := 2
       elements := [.attributes { divisions := some 2 }, .note (.fullRest 8)] }]

/-- Nothing is reported of the first rest, -/
theorem reportsRest_firstTicks :
    Part.finerTicks.finding? 0 1 = some (.note (.fullRest 4), []) ∧
      lastPositive (Part.finerTicks.inFront 0 1) = some 1 ∧
      lastTime (Part.finerTicks.inFront 0 1) = some ⟨4, 4⟩ ∧
      lastPositive (throughTime (Part.finerTicks.inFront 0 1)) =
        lastPositive (Part.finerTicks.inFront 0 1) ∧
      (ReportsRest [] ↔ (4 : Rat) ≠ measureLength ⟨4, 4⟩ * ((1 : Int) : Rat)) := by
  have found : Part.finerTicks.finding? 0 1 = some (.note (.fullRest 4), []) := by decide +kernel
  have divided : lastPositive (Part.finerTicks.inFront 0 1) = some 1 := by decide
  have timed : lastTime (Part.finerTicks.inFront 0 1) = some ⟨4, 4⟩ := by decide
  have same : lastPositive (throughTime (Part.finerTicks.inFront 0 1)) =
      lastPositive (Part.finerTicks.inFront 0 1) := by decide
  exact ⟨found, divided, timed, same, (reportsRest_iff found rfl rfl divided timed).2.2.1 same⟩

/-- and the second one is reported, although it is as long as a measure in the divisions in
force. -/
theorem reportsRest_finerTicks :
    ¬ ∀ k j n fs duration d time, Part.finerTicks.finding? k j = some (.note n, fs) →
      n.isMeasureRest = true → n.duration = some duration →
      lastPositive (Part.finerTicks.inFront k j) = some d →
      lastTime (Part.finerTicks.inFront k j) = some time →
        (ReportsRest fs ↔ duration ≠ measureLength time * (d : Rat)) := by
  intro exact
  have found : Part.finerTicks.finding? 1 1 =
      some (.note (.fullRest 8), [.measureRestLength (some 4) 8]) := by decide +kernel
  have reported : ReportsRest [.measureRestLength (some 4) 8] := ⟨_, _, List.mem_singleton.mpr rfl⟩
  have right : (8 : Rat) = measureLength ⟨4, 4⟩ * ((2 : Int) : Rat) := by decide +kernel
  exact (exact 1 1 _ _ 8 2 ⟨4, 4⟩ found rfl rfl (by decide) (by decide)).mp reported right

end LinearScore
