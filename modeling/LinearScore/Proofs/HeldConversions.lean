import LinearScore.Proofs.HeldNumbers
import LinearScore.Proofs.SystemDurations
import LinearScore.Proofs.WholeTicks

/-!
# Conversions of durations by the integers of the machine

A part is put into ticks just where its least divisions and all its ticks are held: a common
multiple that is not held stays so, whatever denominators follow.  A part in ticks is put into
quarters just where all quotients are held.

The main statements are `fits_toTicks_iff` and `fits_toQuarters_iff`.
-/

namespace LinearScore

namespace Machine

/-! ## Into ticks -/

/-- The last common multiple of denominators is the largest of them. -/
theorem fits_foldlM_commonMultiple (qs : List Rat) {start : Nat} (positive : 0 < start)
    (small : start < limit64) :
    (qs.foldlM (fun d q => commonMultiple d q.den) start).fits = true ↔
      qs.foldl (fun d q => d.lcm q.den) start < limit64 := by
  induction qs generalizing start with
  | nil => exact ⟨fun _ => small, fun _ => rfl⟩
  | cons q qs ih =>
    have step : (commonMultiple start q.den).fits = true ↔ start.lcm q.den < limit64 := by
      rw [fits_commonMultiple, holds_natCast_iff]
    have next : 0 < start.lcm q.den := Nat.lcm_pos positive q.den_pos
    rw [List.foldlM_cons, Checked.fits_bind, value_commonMultiple, Bool.and_eq_true, step,
      List.foldl_cons]
    constructor
    · rintro ⟨small, fits⟩
      exact (ih next small).mp fits
    · intro last
      obtain ⟨lastPositive, divides, -⟩ := dvd_foldl_lcm qs next
      have small := (Nat.le_of_dvd lastPositive divides).trans_lt last
      exact ⟨small, (ih next small).mpr last⟩

theorem fits_leastDivisions_iff (p : Part) :
    (leastDivisions p).fits = true ↔ p.leastDivisions < limit64 :=
  fits_foldlM_commonMultiple p.durations Nat.one_pos (by decide)

/-- **A part without divisions is put into ticks** just where they and the ticks are held. -/
theorem fits_toTicks_iff {p : Part} (undivided : p.hasDivisions = false) :
    (toTicks p).fits = true ↔
      p.leastDivisions < limit64 ∧
        ∀ q ∈ p.durations, holdsFraction (q * p.leastDivisions) = true := by
  rw [toTicks, undivided]
  show ((leastDivisions p).fits && ((fractions _).fits && true)) = true ↔ _
  rw [Bool.and_true, Bool.and_eq_true, fits_leastDivisions_iff, value_leastDivisions, fractions,
    List.all_map, List.all_eq_true]
  rfl

theorem fits_toTicks_of_divided {p : Part} (divided : p.hasDivisions = true) :
    (toTicks p).fits = true := by
  rw [toTicks, divided]
  rfl

/-- Ticks that are held come from a fraction that is held. -/
theorem holdsFraction_of_mul {q : Rat} {d : Nat} (divides : q.den ∣ d) (positive : 0 < d)
    (small : d < limit64) (ticks : holdsFraction (q * d) = true) : holdsFraction q = true := by
  obtain ⟨k, rfl⟩ := divides
  have factor : 0 < k := Nat.pos_of_mul_pos_left positive
  have whole : q * ((q.den * k : Nat) : Rat) = ((q.num * k : Int) : Rat) := by
    push_cast
    rw [← mul_assoc, Rat.mul_den_eq_num]
  rw [whole, holdsFraction, Rat.num_intCast, Bool.and_eq_true] at ticks
  have numerator : holds limit64 q.num = true := by
    have scaled := ticks.1
    have least : (1 : Int) ≤ k := by exact_mod_cast factor
    simp only [holds, Bool.and_eq_true, decide_eq_true_eq] at scaled ⊢
    constructor
    · rcases le_total 0 q.num with positive | negative
      · exact (Int.neg_nonpos_of_nonneg (Int.natCast_nonneg _)).trans positive
      · exact scaled.1.trans (mul_le_of_one_le_right negative least)
    · rcases le_total 0 q.num with positive | negative
      · exact (le_mul_of_one_le_right positive least).trans_lt scaled.2
      · exact negative.trans_lt (by decide)
  rw [holdsFraction, numerator, Bool.true_and, holds_natCast_iff]
  exact (Nat.le_mul_of_pos_right _ factor).trans_lt small

/-! ## Into quarters -/

variable {divisions : Option Int}

theorem fits_threadChecked_cons {σ α β : Type} (f : σ → α → Checked (σ × β)) (s : σ) (a : α)
    (as : List α) :
    (threadChecked f s (a :: as)).fits =
      ((f s a).fits && (threadChecked f (f s a).value.1 as).fits) := by
  rw [threadChecked, Checked.fits_bind, Checked.fits_bind, Checked.fits_pure, Bool.and_true]

/-- The one number that is computed at an element is what its duration becomes. -/
theorem quotient?_of_divides {e : Element} (h : e.Divides divisions) :
    quotient? ⟨divisions, none⟩ e = (e.inQuarters divisions).duration? := by
  obtain ⟨-, known⟩ := h
  cases divisions with
  | none =>
    have untimed : e.duration? = none :=
      Option.not_isSome_iff_eq_none.mp fun timed => nomatch known timed
    rw [quotient?, untimed]
    cases e with
    | attributes a => rfl
    | note n => exact untimed.symm
    | backup d => cases untimed
    | forward d => cases untimed
  | some d =>
    cases e with
    | attributes a => rfl
    | note n =>
      show quotient? _ (.note n) = n.duration.map (· / (d : Rat))
      unfold quotient?
      dsimp only [Element.duration?]
      cases n.duration <;> rfl
    | backup t => rfl
    | forward t => rfl

theorem fits_thread_quarterElement (measure : Int) {es : List Element}
    (h : AllDivide divisions es) :
    (threadChecked (quarterElement measure) ⟨divisions, none⟩ es).fits =
      ((inQuarters divisions es).filterMap Element.duration?).all holdsFraction := by
  induction es generalizing divisions with
  | nil => rfl
  | cons e es ih =>
    have step : (quarterElement measure ⟨divisions, none⟩ e).fits =
        (e.inQuarters divisions).duration?.toList.all holdsFraction := by
      rw [← quotient?_of_divides h.1]
      exact Bool.and_true _
    rw [fits_threadChecked_cons, step, value_quarterElement,
      QuarterScan.element_of_divides measure h.1, ih h.2, inQuarters, List.filterMap_cons]
    cases (e.inQuarters divisions).duration? with
    | none => rfl
    | some q =>
      show (holdsFraction q && true && _) = (holdsFraction q && _)
      rw [Bool.and_true]

theorem fits_thread_quarterMeasure {ms : List Measure}
    (h : AllDivide divisions (ms.flatMap (·.elements))) :
    (threadChecked quarterMeasure ⟨divisions, none⟩ ms).fits =
      ((inQuarters divisions (ms.flatMap (·.elements))).filterMap Element.duration?).all
        holdsFraction := by
  induction ms generalizing divisions with
  | nil => rfl
  | cons m ms ih =>
    rw [List.flatMap_cons, allDivide_append] at h
    have state : (quarterMeasure ⟨divisions, none⟩ m).value.1 =
        ⟨divisionsBehind divisions m.elements, none⟩ := by
      rw [value_quarterMeasure]
      exact congrArg Prod.fst (QuarterScan.thread_element_of_allDivide m.number h.1)
    have here : (quarterMeasure ⟨divisions, none⟩ m).fits =
        ((inQuarters divisions m.elements).filterMap Element.duration?).all holdsFraction := by
      rw [← fits_thread_quarterElement m.number h.1]
      exact Bool.and_true _
    rw [fits_threadChecked_cons, here, state, ih h.2, List.flatMap_cons, inQuarters_append,
      List.filterMap_append, List.all_append]

/-- **A part that can be converted is put into quarters** just where all quotients are held. -/
theorem fits_toQuarters_iff {p : Part} (ok : p.toQuarters.outcome = .ok ()) :
    (toQuarters p).fits = true ↔
      ∀ q ∈ (inQuarters none p.elements).filterMap Element.duration?, holdsFraction q = true := by
  rw [Part.outcome_toQuarters_eq_ok_iff, Part.elements] at ok
  have fits : (toQuarters p).fits = (threadChecked quarterMeasure {} p.measures).fits :=
    Bool.and_true _
  rw [fits, fits_thread_quarterMeasure ok, List.all_eq_true]
  rfl

end Machine

end LinearScore
