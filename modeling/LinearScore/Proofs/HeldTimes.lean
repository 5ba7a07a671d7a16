import Mathlib.Algebra.Order.BigOperators.Group.List
import LinearScore.Alteration
import LinearScore.Decoding.Chord
import LinearScore.Proofs.HeldNumbers

/-!
# Times that the integers of the machine hold

Everything that is added up along a measure is a duration, so no sum there is larger than the
stretch that its elements pass over, whichever way they go.  Where the durations are fractions over
one denominator and the stretch over it is held, neighbouring backups and forwards are joined and
the times of the notes are compared without a number that is not held.

## Main definitions

* `stretch`: the time that some elements pass over
* `Element.Over`: an element whose duration is a fraction over a common denominator

The main statements are `fits_mergeSkips` and `fits_inferAlterations`.
-/

namespace LinearScore

/-- The time that some elements pass over, forwards and backwards. -/
def stretch (es : List Element) : Rat := ((es.filterMap Element.duration?).map abs).sum

/-- The duration of an element, if it has one, is a fraction over a common denominator. -/
def Element.Over (common : Nat) (e : Element) : Prop := ∀ q ∈ e.duration?, q.den ∣ common

section Stretch

variable {common : Nat}

theorem stretch_nil : stretch [] = 0 := rfl

theorem stretch_cons (e : Element) (es : List Element) :
    stretch (e :: es) = |e.duration?.getD 0| + stretch es := by
  unfold stretch
  rw [List.filterMap_cons]
  cases e.duration? with
  | none => rw [Option.getD_none, abs_zero, zero_add]
  | some q => rfl

theorem stretch_nonneg (es : List Element) : 0 ≤ stretch es :=
  List.sum_nonneg (List.forall_mem_map.mpr fun q _ => abs_nonneg q)

/-- An element passes over no more than all of them do. -/
theorem abs_duration_le_stretch {es : List Element} {e : Element} (he : e ∈ es) :
    |e.duration?.getD 0| ≤ stretch es := by
  induction es with
  | nil => cases he
  | cons head es ih =>
    rw [stretch_cons]
    rcases List.mem_cons.mp he with rfl | later
    · exact le_add_of_nonneg_right (stretch_nonneg es)
    · exact (ih later).trans (le_add_of_nonneg_left (abs_nonneg _))

/-- Short elements pass over no more than their number times the longest of them. -/
theorem stretch_le {es : List Element} {longest : Rat} (nonneg : 0 ≤ longest)
    (short : ∀ e ∈ es, ∀ q ∈ e.duration?, |q| ≤ longest) : stretch es ≤ es.length * longest := by
  induction es with
  | nil => rw [stretch_nil, List.length_nil, Nat.cast_zero, zero_mul]
  | cons e es ih =>
    obtain ⟨here, later⟩ := List.forall_mem_cons.mp short
    have head : |e.duration?.getD 0| ≤ longest := by
      cases lasts : e.duration? with
      | none => rwa [Option.getD_none, abs_zero]
      | some q => exact here q lasts
    rw [stretch_cons, List.length_cons, Nat.cast_succ, add_mul, one_mul, add_comm]
    exact add_le_add (ih later) head

theorem den_add_dvd {p q : Rat} (hp : p.den ∣ common) (hq : q.den ∣ common) :
    (p + q).den ∣ common :=
  (Rat.add_den_dvd_lcm p q).trans (Nat.lcm_dvd hp hq)

theorem den_sub_dvd {p q : Rat} (hp : p.den ∣ common) (hq : q.den ∣ common) :
    (p - q).den ∣ common := by
  rw [sub_eq_add_neg]
  exact den_add_dvd hp (by rwa [Rat.neg_den])

/-- An element moves the cursor by its duration at most, -/
theorem abs_advance_le (cursor : Rat) (e : Element) :
    |e.advance cursor| ≤ |cursor| + |e.duration?.getD 0| := by
  cases e with
  | attributes a => exact le_add_of_nonneg_right (abs_nonneg _)
  | note n =>
    rw [Element.advance]
    split
    · exact le_add_of_nonneg_right (abs_nonneg _)
    · exact abs_add_le cursor (n.duration.getD 0)
  | backup d => exact abs_sub cursor d
  | forward d => exact abs_add_le cursor d

/-- and over the same denominator. -/
theorem Element.Over.den_advance {e : Element} (divides : e.Over common) {cursor : Rat}
    (start : cursor.den ∣ common) : (e.advance cursor).den ∣ common := by
  cases e with
  | attributes a => exact start
  | note n =>
    rw [Element.advance]
    split
    · exact start
    · cases lasts : n.duration with
      | none => rwa [Option.getD_none, add_zero]
      | some d => exact den_add_dvd start (divides d lasts)
  | backup d => exact den_sub_dvd start (divides d rfl)
  | forward d => exact den_add_dvd start (divides d rfl)

end Stretch

namespace Machine

/-- The sum of two elements that move the cursor the same way. -/
theorem sumSkips?_eq_some {last e : Element} {sum : Checked Element}
    (h : sumSkips? last e = some sum) :
    ∃ (move : Rat → Element) (p q : Rat), (move = .backup ∨ move = .forward) ∧
      last = move p ∧ e = move q ∧ sum.value = move (p + q) ∧ sum.fits = (add p q).fits := by
  cases last with
  | backup p =>
    cases e with
    | backup q =>
      obtain rfl : .backup <$> add p q = sum := Option.some.inj h
      exact ⟨_, p, q, .inl rfl, rfl, rfl, congrArg _ (value_add p q), Checked.fits_map _ _⟩
    | forward q | note n | attributes a => cases h
  | forward p =>
    cases e with
    | forward q =>
      obtain rfl : .forward <$> add p q = sum := Option.some.inj h
      exact ⟨_, p, q, .inr rfl, rfl, rfl, congrArg _ (value_add p q), Checked.fits_map _ _⟩
    | backup q | note n | attributes a => cases h
  | note n | attributes a => cases h

variable {common : Nat} (held : HeldDenominator common)
include held

/-! ## Times -/

section Times

variable {cursor : Rat} (start : cursor.den ∣ common)
include start

/-- The times at which an element starts and ends are held where the later of them would be. -/
theorem fits_move {e : Element} (divides : e.Over common)
    (bounded : (|cursor| + |e.duration?.getD 0|) * common < limit64) :
    (move cursor e).fits = true := by
  cases e with
  | attributes a => rfl
  | note n =>
    rw [move]
    split
    · rename_i d first lasts
      have duration : (Element.note n).duration? = some d := lasts
      rw [duration] at bounded
      exact held.fits_add start (divides d lasts) bounded
    · rfl
  | backup d => exact held.fits_subtract start (divides d rfl) bounded
  | forward d => exact held.fits_add start (divides d rfl) bounded

theorem fits_onset {n : Note} (divides : (Element.note n).Over common)
    (bounded : (|cursor| + |(Element.note n).duration?.getD 0|) * common < limit64) :
    (onset n cursor).fits = true := by
  rw [onset]
  split
  · rename_i d member lasts
    have duration : (Element.note n).duration? = some d := lasts
    rw [duration] at bounded
    exact held.fits_subtract start (divides d lasts) bounded
  · rfl

theorem fits_span {e : Element} (divides : e.Over common)
    (bounded : (|cursor| + |e.duration?.getD 0|) * common < limit64) :
    (span cursor e).fits = true := by
  have moved := fits_move held start divides bounded
  cases e with
  | attributes a => rfl
  | note n =>
    have starts := fits_onset held start divides bounded
    simp only [span, Checked.fits_bind, Checked.fits_discard, starts, moved, Bool.and_self]
  | backup d => exact moved
  | forward d => exact moved

/-- **The times along a measure are held** where the stretch of its elements is. -/
theorem fits_times {es : List Element} (divides : ∀ e ∈ es, e.Over common)
    (bounded : (|cursor| + stretch es) * common < limit64) : (times cursor es).fits = true := by
  -- the time behind an element and what is left to pass over are no more than before it
  induction es generalizing cursor with
  | nil => rfl
  | cons e es ih =>
    obtain ⟨here, later⟩ := List.forall_mem_cons.mp divides
    have rest := stretch_nonneg es
    have scale : (0 : Rat) ≤ common := Nat.cast_nonneg common
    have step : |e.advance cursor| + stretch es ≤ |cursor| + stretch (e :: es) := by
      rw [stretch_cons, ← add_assoc]
      exact add_le_add_left (abs_advance_le cursor e) _
    have head : |cursor| + |e.duration?.getD 0| ≤ |cursor| + stretch (e :: es) := by
      rw [stretch_cons]
      exact add_le_add_right (le_add_of_nonneg_right rest) _
    rw [times, Checked.fits_bind, value_span, Bool.and_eq_true]
    exact ⟨fits_span held start here ((mul_le_mul_of_nonneg_right head scale).trans_lt bounded),
      ih (here.den_advance start) later
        ((mul_le_mul_of_nonneg_right step scale).trans_lt bounded)⟩

end Times

/-- **The alterations of a part are inferred** where the stretch of every measure is held. -/
theorem fits_inferAlterations {p : Part}
    (divides : ∀ m ∈ p.measures, ∀ e ∈ m.elements, e.Over common)
    (bounded : ∀ m ∈ p.measures, stretch m.elements * common < limit64) :
    (inferAlterations p).fits = true := by
  have measure (m : Measure) (hm : m ∈ p.measures) : (times 0 m.elements).fits = true := by
    refine fits_times held (one_dvd common) (divides m hm) ?_
    rw [abs_zero, zero_add]
    exact bounded m hm
  rw [inferAlterations, Checked.fits_bind, Checked.fits_forM, Checked.fits_pure, Bool.and_true]
  exact List.all_eq_true.mpr measure

/-! ## Backups and forwards that are joined -/

theorem fits_mergeBehind {last : Element} {es : List Element} (first : last.Over common)
    (divides : ∀ e ∈ es, e.Over common) (bounded : stretch (last :: es) * common < limit64) :
    (mergeBehind last es).fits = true := by
  have scale : (0 : Rat) ≤ common := Nat.cast_nonneg common
  induction es generalizing last with
  | nil => rfl
  | cons e es ih =>
    obtain ⟨here, later⟩ := List.forall_mem_cons.mp divides
    rw [mergeBehind]
    split
    · rename_i sum joined
      obtain ⟨move, p, q, moves, rfl, rfl, hsum, fits⟩ := sumSkips?_eq_some joined
      have lasts (r : Rat) : (move r).duration? = some r := by
        rcases moves with rfl | rfl
        · rfl
        · rfl
      rw [stretch_cons, stretch_cons, lasts, lasts, Option.getD_some, Option.getD_some, ← add_assoc]
        at bounded
      have both : (|p| + |q|) * common < limit64 :=
        (mul_le_mul_of_nonneg_right (le_add_of_nonneg_right (stretch_nonneg es)) scale).trans_lt
          bounded
      have less : stretch (sum.value :: es) * common < limit64 := by
        rw [stretch_cons, hsum, lasts, Option.getD_some]
        exact (mul_le_mul_of_nonneg_right
          (add_le_add_left (abs_add_le p q) (stretch es)) scale).trans_lt bounded
      have summed : sum.value.Over common := by
        intro r hr
        rw [hsum] at hr
        obtain rfl : p + q = r := Option.some.inj ((lasts _).symm.trans hr)
        exact den_add_dvd (first p (lasts p)) (here q (lasts q))
      rw [Checked.fits_bind, fits, Bool.and_eq_true]
      exact ⟨held.fits_add (first p (lasts p)) (here q (lasts q)) both, ih summed later less⟩
    · rw [Checked.fits_bind, Checked.fits_pure, Bool.and_true]
      refine ih here later ((mul_le_mul_of_nonneg_right ?_ scale).trans_lt bounded)
      rw [stretch_cons last]
      exact le_add_of_nonneg_left (abs_nonneg _)

/-- **Neighbouring backups and forwards are joined** where the stretch of a measure is held. -/
theorem fits_mergeSkips {es : List Element} (divides : ∀ e ∈ es, e.Over common)
    (bounded : stretch es * common < limit64) : (mergeSkips es).fits = true := by
  cases es with
  | nil => rfl
  | cons e es =>
    obtain ⟨here, later⟩ := List.forall_mem_cons.mp divides
    exact fits_mergeBehind held here later bounded

end Machine

end LinearScore
