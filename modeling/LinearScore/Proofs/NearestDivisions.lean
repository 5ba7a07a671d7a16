import LinearScore.Proofs.TicksAndQuarters

/-!
# Quarters by the nearest divisions

The conversion to quarters goes through a part once, keeps the divisions it has met, and stops at
the first fault.  What it does can be said of each element by itself: its duration is divided by the
divisions that are declared last in front of it, wherever in the part that is.

## Main definitions

* `Part.inFront`: the elements in front of a place
* `lastDivisions`: the divisions that are declared last among elements
* `Part.DivisionsPrecede`: no duration stands in front of all divisions
* `Part.inQuarters`: a part with all durations in quarters
* `Part.ComesBack`: a part in quarters that can be put into ticks and keeps its lengths

The main statement is `toQuarters_and_back`.
-/

namespace LinearScore

/-- The elements of a part in front of the `j`-th element of its `k`-th measure. -/
def Part.inFront (p : Part) (k j : Nat) : List Element :=
  (p.measures.take k).flatMap (·.elements) ++ (p.measures[k]?.elim [] (·.elements)).take j

/-- The divisions that are declared last among elements. -/
def lastDivisions (es : List Element) : Option Int := (es.filterMap Element.divisions?).getLast?

/-- Some divisions are declared in front of every duration. -/
def Part.DivisionsPrecede (p : Part) : Prop :=
  ∀ k m, p.measures[k]? = some m → ∀ j e, m.elements[j]? = some e → e.duration?.isSome →
    ∃ f ∈ p.inFront k j, f.divisions?.isSome

/-- The part with every duration divided by the divisions declared last in front of it, and without
any divisions. -/
def Part.inQuarters (p : Part) : Part :=
  { p with
    measures := p.measures.mapIdx fun k m =>
      { m with
        elements := m.elements.mapIdx fun j e => e.inQuarters (lastDivisions (p.inFront k j)) } }

/-- A part in quarters can be put into ticks if its least divisions and the ticks are held.  Then
the ticks last as long, and to go to quarters and to ticks again leads to the same ticks. -/
structure Part.ComesBack (q : Part) : Prop where
  succeeds : (∃ ticks d, (Machine.toTicks q).outcome = some ⟨ticks, .ok d⟩) ↔
    q.leastDivisions < Machine.limit64 ∧
      ∀ t ∈ q.durations, Machine.holdsFraction (t * q.leastDivisions) = true
  accepted : ∀ c, (Machine.toTicks q).outcome = some c → c.outcome = .ok q.leastDivisions
  lengths : ∀ c, (Machine.toTicks q).outcome = some c → c.part.inQuarters.durations = q.durations
  settled : ∀ c, (Machine.toTicks q).outcome = some c →
    ∃ again, (Machine.toQuarters c.part).outcome = some ⟨again, .ok ()⟩ ∧
      (Machine.toTicks again).outcome = some c

variable {divisions : Option Int}

/-! ## The divisions in front of a place -/

theorem divisionsBehind_eq (divisions : Option Int) (es : List Element) :
    divisionsBehind divisions es = (lastDivisions es).or divisions := by
  induction es generalizing divisions with
  | nil => rfl
  | cons e es ih =>
    show divisionsBehind (e.divisions?.or divisions) es = _
    rw [ih, lastDivisions, lastDivisions, List.filterMap_cons]
    cases e.divisions? with
    | none => rw [Option.none_or]
    | some d =>
      rw [List.getLast?_cons, Option.some_or]
      cases (es.filterMap Element.divisions?).getLast? <;> rfl

theorem isSome_lastDivisions_iff {es : List Element} :
    (lastDivisions es).isSome ↔ ∃ e ∈ es, e.divisions?.isSome := by
  rw [lastDivisions, List.getLast?_isSome, Ne, List.filterMap_eq_nil_iff]
  simp [Option.isSome_iff_ne_none]

theorem divisionsBehind_append (divisions : Option Int) (es fs : List Element) :
    divisionsBehind divisions (es ++ fs) =
      divisionsBehind (divisionsBehind divisions es) fs := List.foldl_append

/-- What the conversion has met in front of an element is what is declared there last. -/
theorem divisionsBehind_inFront {p : Part} {k : Nat} {m : Measure} (hm : p.measures[k]? = some m)
    (j : Nat) :
    divisionsBehind (divisionsBehind none ((p.measures.take k).flatMap (·.elements)))
      (m.elements.take j) = lastDivisions (p.inFront k j) := by
  rw [← divisionsBehind_append, divisionsBehind_eq, Option.or_none, Part.inFront, hm]
  rfl

/-! ## When the conversion succeeds -/

theorem allDivide_iff_getElem? {es : List Element} :
    AllDivide divisions es ↔
      ∀ j (e : Element), es[j]? = some e → e.Divides (divisionsBehind divisions (es.take j)) := by
  induction es generalizing divisions with
  | nil => exact ⟨fun _ j e he => by simp at he, fun _ => trivial⟩
  | cons e es ih =>
    rw [AllDivide, ih]
    constructor
    · rintro ⟨here, later⟩ (_ | j) f hf
      · cases hf
        exact here
      · exact later j f hf
    · intro all
      exact ⟨all 0 e rfl, fun j f hf => all (j + 1) f hf⟩

theorem allDivide_flatMap_iff {ms : List Measure} :
    AllDivide divisions (ms.flatMap (·.elements)) ↔
      ∀ k (m : Measure), ms[k]? = some m →
        AllDivide (divisionsBehind divisions ((ms.take k).flatMap (·.elements))) m.elements := by
  induction ms generalizing divisions with
  | nil => exact ⟨fun _ k m hm => by simp at hm, fun _ => trivial⟩
  | cons m ms ih =>
    rw [List.flatMap_cons, allDivide_append, ih]
    constructor
    · rintro ⟨here, later⟩ (_ | k) m' hm'
      · cases hm'
        exact here
      · rw [List.take_succ_cons, List.flatMap_cons, divisionsBehind_append]
        exact later k m' hm'
    · intro all
      refine ⟨all 0 m rfl, fun k m' hm' => ?_⟩
      rw [← divisionsBehind_append, ← List.flatMap_cons, ← List.take_succ_cons]
      exact all (k + 1) m' hm'

theorem outcome_toQuarters_eq_ok_iff_precede (p : Part) :
    p.toQuarters.outcome = .ok () ↔
      (∀ d ∈ p.declaredDivisions, 0 < d) ∧ p.DivisionsPrecede := by
  have places : p.toQuarters.outcome = .ok () ↔ ∀ k (m : Measure), p.measures[k]? = some m →
      ∀ j (e : Element), m.elements[j]? = some e → e.Divides (lastDivisions (p.inFront k j)) := by
    rw [Part.outcome_toQuarters_eq_ok_iff, Part.elements, allDivide_flatMap_iff]
    refine forall₃_congr fun k m hm => ?_
    simp only [allDivide_iff_getElem?, divisionsBehind_inFront hm]
  rw [places, Part.positive_declaredDivisions_iff]
  constructor
  · intro all
    refine ⟨fun m hm e he => ?_, fun k m hm j e he timed => ?_⟩
    · obtain ⟨k, hk⟩ := List.mem_iff_getElem?.mp hm
      obtain ⟨j, hj⟩ := List.mem_iff_getElem?.mp he
      exact (all k m hk j e hj).1
    · exact isSome_lastDivisions_iff.mp ((all k m hm j e he).2 timed)
  · rintro ⟨positive, precede⟩ k m hm j e he
    exact ⟨positive m (List.mem_of_getElem? hm) e (List.mem_of_getElem? he),
      fun timed => isSome_lastDivisions_iff.mpr (precede k m hm j e he timed)⟩

/-! ## What it converts to -/

theorem inQuarters_eq_mapIdx (divisions : Option Int) (es : List Element) :
    inQuarters divisions es =
      es.mapIdx fun j e => e.inQuarters (divisionsBehind divisions (es.take j)) := by
  induction es generalizing divisions with
  | nil => rfl
  | cons e es ih =>
    rw [inQuarters, ih, List.mapIdx_cons]
    rfl

theorem thread_inQuarters_state (divisions : Option Int) (ms : List Measure) :
    (thread Measure.inQuarters divisions ms).1 =
      divisionsBehind divisions (ms.flatMap (·.elements)) := by
  induction ms generalizing divisions with
  | nil => rfl
  | cons m ms ih =>
    rw [thread_cons, ih, List.flatMap_cons, divisionsBehind_append]
    rfl

theorem part_toQuarters_eq_inQuarters {p : Part} (ok : p.toQuarters.outcome = .ok ()) :
    p.toQuarters.part = p.inQuarters := by
  have measures : (thread Measure.inQuarters none p.measures).2 = p.inQuarters.measures := by
    refine List.ext_getElem? fun k => ?_
    rw [getElem?_thread, thread_inQuarters_state, Part.inQuarters, List.getElem?_mapIdx]
    cases hm : p.measures[k]? with
    | none => rfl
    | some m =>
      simp only [Option.map_some, Measure.inQuarters, inQuarters_eq_mapIdx,
        divisionsBehind_inFront hm]
  rw [Part.part_toQuarters ok, measures]
  rfl

/-! ## And back -/

/-- Whether a measure without divisions opens with attributes makes no difference in ticks. -/
theorem declared_opened (f : Rat → Rat) (g : Attributes → Attributes) (m : Measure) :
    ((m.withHead fun a => a).mapDurations f).withHead g = (m.mapDurations f).withHead g := by
  have elements : ((m.withHead fun a => a).mapDurations f).body = (m.mapDurations f).body := by
    rw [Measure.body_mapDurations, Measure.body_withHead, Measure.body_mapDurations]
  rw [Measure.withHead_eq, elements, Measure.head_mapDurations, Measure.head_withHead,
    Measure.withHead_eq (m.mapDurations f), Measure.head_mapDurations, Measure.withHead_eq m]
  rfl

section Opened

variable {q : Part} (plain : q.hasDivisions = false)
include plain

theorem hasDivisions_opened : q.opened.hasDivisions = false := by
  rw [hasDivisions_eq_false_iff] at plain ⊢
  obtain ⟨id, name, measures⟩ := q
  cases measures with
  | nil => exact plain
  | cons m ms =>
    obtain ⟨here, later⟩ : (∀ e ∈ m.elements, e.divisions? = none) ∧
        ∀ e ∈ ms.flatMap Measure.elements, e.divisions? = none := List.forall_mem_append.mp plain
    obtain ⟨head, body⟩ := m.plain_head_body here
    have opened : ∀ e ∈ (m.withHead fun a => a).elements, e.divisions? = none := by
      rw [Measure.elements_withHead]
      exact List.forall_mem_cons.mpr ⟨head, body⟩
    exact List.forall_mem_append.mpr ⟨opened, later⟩

/-- A part in quarters gets the same ticks whether its first measure opens with attributes. -/
theorem toTicks_opened : q.opened.toTicks = q.toTicks := by
  have least : q.opened.leastDivisions = q.leastDivisions := by
    rw [Part.leastDivisions, durations_opened, Part.leastDivisions]
  rw [toTicks_of_undivided plain, toTicks_of_undivided (hasDivisions_opened plain), least]
  refine congrArg (Conversion.mk · _) ?_
  obtain ⟨id, name, measures⟩ := q
  cases measures with
  | nil => rfl
  | cons m ms => exact congrArg (fun first => Part.mk id name (first :: _)) (declared_opened _ _ m)

/-- It does not matter either whether the ticks are held. -/
theorem fits_toTicks_opened : (Machine.toTicks q.opened).fits = (Machine.toTicks q).fits := by
  have least : q.opened.leastDivisions = q.leastDivisions := by
    rw [Part.leastDivisions, durations_opened, Part.leastDivisions]
  rw [Bool.eq_iff_iff, Machine.fits_toTicks_iff plain,
    Machine.fits_toTicks_iff (hasDivisions_opened plain), least, durations_opened]

/-- **A part in quarters comes back** from ticks with the same lengths. -/
theorem comesBack_of_plain : q.ComesBack := by
  obtain ⟨succeeds, again, back⟩ := toQuarters_toTicks plain
  have computed {c : Conversion Nat} (hc : (Machine.toTicks q).outcome = some c) :
      (Machine.toTicks q).fits = true ∧ q.toTicks = c := by
    rwa [Checked.outcome_eq_some_iff, Machine.value_toTicks] at hc
  constructor
  case succeeds =>
    rw [← Machine.fits_toTicks_iff plain]
    constructor
    · rintro ⟨ticks, d, hc⟩
      exact (computed hc).1
    · intro fits
      refine ⟨q.toTicks.part, q.leastDivisions, ?_⟩
      rw [Checked.outcome_of_fits fits, Machine.value_toTicks, ← succeeds]
  case accepted =>
    intro c hc
    obtain ⟨-, rfl⟩ := computed hc
    exact succeeds
  case lengths =>
    intro c hc
    obtain ⟨-, rfl⟩ := computed hc
    rw [← part_toQuarters_eq_inQuarters again, back, durations_opened]
  case settled =>
    intro c hc
    obtain ⟨fits, rfl⟩ := computed hc
    refine ⟨q.opened, ?_, ?_⟩
    · rw [Checked.outcome_of_fits (fits_toQuarters_toTicks plain fits), Machine.value_toQuarters,
        ← back, ← again]
    · rw [Checked.outcome_of_fits ((fits_toTicks_opened plain).trans fits), Machine.value_toTicks,
        toTicks_opened plain]

end Opened

/-- What is computed on the way to quarters are the durations in quarters. -/
theorem fits_toQuarters_iff_held {p : Part} (ok : p.toQuarters.outcome = .ok ()) :
    (Machine.toQuarters p).fits = true ↔
      ∀ q ∈ p.inQuarters.durations, Machine.holdsFraction q = true := by
  rw [Machine.fits_toQuarters_iff ok, ← elements_toQuarters ok, part_toQuarters_eq_inQuarters ok]
  rfl

theorem outcome_toQuarters_of_fits {p : Part} (ok : p.toQuarters.outcome = .ok ())
    (fits : (Machine.toQuarters p).fits = true) :
    (Machine.toQuarters p).outcome = some ⟨p.inQuarters, .ok ()⟩ := by
  rw [Checked.outcome_of_fits fits, Machine.value_toQuarters, ← part_toQuarters_eq_inQuarters ok,
    ← ok]

/-- **The conversion to quarters and back.**  A part can be put into quarters exactly if all the
divisions it declares are positive, some are declared in front of every duration, and all durations
in quarters are held.  Then each duration is divided by the divisions declared last in front of it,
all divisions are gone, and nothing else has changed; and what has become of the part comes back
from ticks. -/
theorem toQuarters_and_back (p : Part) :
    ((∃ q, (Machine.toQuarters p).outcome = some ⟨q, .ok ()⟩) ↔
      (∀ d ∈ p.declaredDivisions, 0 < d) ∧ p.DivisionsPrecede ∧
        ∀ q ∈ p.inQuarters.durations, Machine.holdsFraction q = true) ∧
    ∀ q, (Machine.toQuarters p).outcome = some ⟨q, .ok ()⟩ → q = p.inQuarters ∧ q.ComesBack := by
  have computed {q : Part} (hq : (Machine.toQuarters p).outcome = some ⟨q, .ok ()⟩) :
      (Machine.toQuarters p).fits = true ∧ p.toQuarters.outcome = .ok () ∧
        p.toQuarters.part = q := by
    rw [Checked.outcome_eq_some_iff, Machine.value_toQuarters] at hq
    obtain ⟨fits, value⟩ := hq
    rw [value]
    exact ⟨fits, rfl, rfl⟩
  refine ⟨⟨?_, ?_⟩, ?_⟩
  · rintro ⟨q, hq⟩
    obtain ⟨fits, ok, -⟩ := computed hq
    obtain ⟨positive, precede⟩ := (outcome_toQuarters_eq_ok_iff_precede p).mp ok
    exact ⟨positive, precede, (fits_toQuarters_iff_held ok).mp fits⟩
  · rintro ⟨positive, precede, held⟩
    have ok := (outcome_toQuarters_eq_ok_iff_precede p).mpr ⟨positive, precede⟩
    exact ⟨p.inQuarters, outcome_toQuarters_of_fits ok ((fits_toQuarters_iff_held ok).mpr held)⟩
  · intro q hq
    obtain ⟨-, ok, rfl⟩ := computed hq
    exact ⟨part_toQuarters_eq_inQuarters ok, comesBack_of_plain (hasDivisions_toQuarters ok)⟩

/-- It can be put into quarters, but not back into ticks: the least divisions are not held. -/
theorem primeDivisions_stops :
    (∀ d ∈ Part.primeDivisions.declaredDivisions, 0 < d) ∧
      (Machine.toQuarters Part.primeDivisions).outcome =
        some ⟨Part.primeDivisions.inQuarters, .ok ()⟩ ∧
      (Machine.toTicks Part.primeDivisions.inQuarters).outcome = none := by
  refine ⟨by decide, outcome_toQuarters_of_fits rfl ?_, ?_⟩
  · decide +kernel
  · decide +kernel

/-- Divisions that change in the middle of a measure and hold on into the next one. -/
def Part.redivided : Part where
  id := "P1"
  measures :=
    [{ number := 1
       elements :=
        [.attributes { divisions := some 2 }, .note (.plainRest .quarter 2), .forward 1,
         .attributes { divisions := some 3, key := some ⟨1⟩ },
         .note (.pitched .c 4 .eighth 1)] },
     { number := 2, elements := [.backup 3] }]

theorem toQuarters_and_back_redivided :
    (Machine.toQuarters Part.redivided).outcome = some ⟨Part.redivided.inQuarters, .ok ()⟩ ∧
      Part.redivided.inQuarters.ComesBack := by
  have converted : (Machine.toQuarters Part.redivided).outcome =
      some ⟨Part.redivided.inQuarters, .ok ()⟩ :=
    outcome_toQuarters_of_fits rfl (by decide +kernel)
  obtain ⟨-, back⟩ := (toQuarters_and_back Part.redivided).2 _ converted
  exact ⟨converted, back⟩

example : Part.redivided.inQuarters.durations = [1, 1 / 2, 1 / 3, 1] := by decide +kernel

end LinearScore
