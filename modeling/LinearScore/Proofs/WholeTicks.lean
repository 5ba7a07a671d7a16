import Mathlib.Data.Rat.Lemmas
import Mathlib.Order.Bounds.Basic
import LinearScore.Duration.Form

/-!
# Whole ticks

The divisions that a part gets when it is put into ticks are the least common multiple of all
denominators.  They make every duration whole, so the loop that multiplies the durations never
stops at one that is no whole number of ticks, and no smaller divisions would do.

## Main definitions

* `Part.mapDurations`: a part with every duration changed

The main statements are `isLeast_leastDivisions`, `toTicks_of_divided` and `toTicks_of_undivided`.
-/

namespace LinearScore

/-- The measure with every duration changed by `f`. -/
def Measure.mapDurations (f : Rat → Rat) (m : Measure) : Measure :=
  { m with elements := m.elements.map (Element.mapDuration f) }

/-- The part with every duration changed by `f`. -/
def Part.mapDurations (f : Rat → Rat) (p : Part) : Part :=
  { p with measures := p.measures.map fun m =>
      { m with elements := m.elements.map (Element.mapDuration f) } }

theorem elements_mapDurations (f : Rat → Rat) (p : Part) :
    (p.mapDurations f).elements = p.elements.map (Element.mapDuration f) := by
  rw [Part.elements, Part.elements, Part.mapDurations, List.flatMap_map, List.map_flatMap]

/-! ## The least divisions -/

/-- The least common multiple of denominators is a positive multiple of each. -/
theorem dvd_foldl_lcm (qs : List Rat) {start : Nat} (h : 0 < start) :
    0 < qs.foldl (fun d q => d.lcm q.den) start ∧
      start ∣ qs.foldl (fun d q => d.lcm q.den) start ∧
      ∀ q ∈ qs, q.den ∣ qs.foldl (fun d q => d.lcm q.den) start := by
  induction qs generalizing start with
  | nil => exact ⟨h, Nat.dvd_refl _, List.forall_mem_nil _⟩
  | cons q qs ih =>
    obtain ⟨positive, dvd, later⟩ := ih (Nat.lcm_pos h q.den_pos)
    refine ⟨positive, (Nat.dvd_lcm_left ..).trans dvd, ?_⟩
    exact List.forall_mem_cons.mpr ⟨(Nat.dvd_lcm_right ..).trans dvd, later⟩

/-- It divides every common multiple. -/
theorem foldl_lcm_dvd {qs : List Rat} {start k : Nat} (first : start ∣ k)
    (later : ∀ q ∈ qs, q.den ∣ k) : qs.foldl (fun d q => d.lcm q.den) start ∣ k := by
  induction qs generalizing start with
  | nil => exact first
  | cons q qs ih =>
    obtain ⟨here, later⟩ := List.forall_mem_cons.mp later
    exact ih (Nat.lcm_dvd first here) later

/-- A multiple of a fraction is whole if the factor is a multiple of the denominator. -/
theorem den_mul_natCast_eq_one_iff (q : Rat) (k : Nat) :
    (q * (k : Rat)).den = 1 ↔ q.den ∣ k := by
  constructor
  · intro whole
    have value : q.num * (k : Int) = (q * (k : Rat)).num * (q.den : Int) := by
      have integer : ((q * (k : Rat)).num : Rat) = q * k := (Rat.den_eq_one_iff _).mp whole
      have product : (q.num : Rat) * k = (q * (k : Rat)).num * q.den := by
        rw [integer, ← Rat.mul_den_eq_num, mul_right_comm]
      exact_mod_cast product
    have dvd : q.den ∣ (q.num * (k : Int)).natAbs := by
      rw [value, Int.natAbs_mul, Int.natAbs_natCast]
      exact Nat.dvd_mul_left _ _
    rw [Int.natAbs_mul, Int.natAbs_natCast] at dvd
    exact q.reduced.symm.dvd_of_dvd_mul_left dvd
  · rintro ⟨c, rfl⟩
    have whole : q * ((q.den * c : Nat) : Rat) = ((q.num * c : Int) : Rat) := by
      push_cast
      rw [← mul_assoc, Rat.mul_den_eq_num]
    rw [whole]
    exact Rat.den_intCast _

theorem leastDivisions_pos (p : Part) : 0 < p.leastDivisions :=
  (dvd_foldl_lcm p.durations Nat.one_pos).1

/-- The least divisions make each duration whole. -/
theorem den_mul_leastDivisions {p : Part} {q : Rat} (h : q ∈ p.durations) :
    (q * (p.leastDivisions : Rat)).den = 1 :=
  (den_mul_natCast_eq_one_iff q _).mpr ((dvd_foldl_lcm p.durations Nat.one_pos).2.2 q h)

/-- The least divisions are the least that make all durations whole. -/
theorem isLeast_leastDivisions (p : Part) :
    IsLeast {k : Nat | 0 < k ∧ ∀ q ∈ p.durations, (q * (k : Rat)).den = 1} p.leastDivisions := by
  refine ⟨⟨leastDivisions_pos p, fun q hq => den_mul_leastDivisions hq⟩, ?_⟩
  rintro k ⟨positive, whole⟩
  apply Nat.le_of_dvd positive
  exact foldl_lcm_dvd (one_dvd k) fun q hq => (den_mul_natCast_eq_one_iff q k).mp (whole q hq)

/-! ## The loop over the durations -/

theorem Element.mapDuration_of_untimed {e : Element} (untimed : e.duration? = none)
    (f : Rat → Rat) : e.mapDuration f = e := by
  cases e with
  | attributes a => rfl
  | note n =>
    have undated : n.duration = none := untimed
    show Element.note { n with duration := n.duration.map f } = _
    rw [undated, Option.map_none, ← undated]
  | backup d => cases untimed
  | forward d => cases untimed

section Scale

variable {d : Nat}

/-- An element is multiplied if its duration becomes whole. -/
theorem Element.scale_of_whole {e : Element} (whole : ∀ q ∈ e.duration?, (q * (d : Rat)).den = 1) :
    e.scale d none = (none, e.mapDuration (· * (d : Rat))) := by
  unfold Element.scale
  cases duration : e.duration? with
  | none => exact congrArg _ (e.mapDuration_of_untimed duration _).symm
  | some q => exact if_pos (whole q duration)

theorem Measure.scale_of_whole {m : Measure}
    (whole : ∀ e ∈ m.elements, ∀ q ∈ e.duration?, (q * (d : Rat)).den = 1) :
    m.scale d none = (none, m.mapDurations (· * (d : Rat))) := by
  have elements (es : List Element) (whole : ∀ e ∈ es, ∀ q ∈ e.duration?, (q * (d : Rat)).den = 1) :
      thread (Element.scale d) none es = (none, es.map (Element.mapDuration (· * (d : Rat)))) := by
    induction es with
    | nil => rfl
    | cons e es ih =>
      obtain ⟨here, later⟩ := List.forall_mem_cons.mp whole
      rw [thread_cons, Element.scale_of_whole here, ih later]
      rfl
  unfold Measure.scale
  rw [elements m.elements whole]
  rfl

/-- **The loop runs through if all durations become whole.** -/
theorem Part.scale_of_whole {p : Part} (whole : ∀ q ∈ p.durations, (q * (d : Rat)).den = 1) :
    p.scale d = ⟨p.mapDurations (· * (d : Rat)), .ok ()⟩ := by
  have measures (ms : List Measure)
      (whole : ∀ e ∈ ms.flatMap Measure.elements, ∀ q ∈ e.duration?, (q * (d : Rat)).den = 1) :
      thread (Measure.scale d) none ms = (none, ms.map (Measure.mapDurations (· * (d : Rat)))) := by
    induction ms with
    | nil => rfl
    | cons m ms ih =>
      obtain ⟨here, later⟩ := List.forall_mem_append.mp whole
      rw [thread_cons, Measure.scale_of_whole here, ih later]
      rfl
  have each : ∀ e ∈ p.elements, ∀ q ∈ e.duration?, (q * (d : Rat)).den = 1 :=
    fun e he q hq => whole q (List.mem_filterMap.mpr ⟨e, he, hq⟩)
  unfold Part.scale
  rw [measures p.measures each]
  rfl

end Scale

/-! ## Parts with and without divisions -/

/-- A part that declares divisions stays as it is. -/
theorem toTicks_of_divided {p : Part} (h : p.hasDivisions = true) :
    p.toTicks = ⟨p, .error .alreadyDivided⟩ := by
  rw [Part.toTicks, h]
  rfl

/-- A part without divisions gets the least ones that make its durations whole. -/
theorem toTicks_of_undivided {p : Part} (h : p.hasDivisions = false) :
    p.toTicks = ⟨(p.mapDurations (· * (p.leastDivisions : Rat))).declareDivisions p.leastDivisions,
      .ok p.leastDivisions⟩ := by
  have scaled := Part.scale_of_whole fun q => den_mul_leastDivisions (p := p) (q := q)
  rw [Part.toTicks, h]
  dsimp only
  rw [scaled]
  rfl

end LinearScore
