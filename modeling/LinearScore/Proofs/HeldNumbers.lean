import Mathlib.Algebra.Order.Ring.Abs
import Mathlib.Data.Rat.Lemmas
import Mathlib.Tactic.Linarith
import LinearScore.Checked

/-!
# Numbers that the integers of the machine hold

Fractions with a common denominator are added and subtracted without a number that is not held, as
long as the common denominator is held and so is the sum of the numerators over it.

## Main definitions

* `Machine.HeldDenominator`: a denominator that is held

The main statements are `fits_add` and `fits_subtract`.
-/

namespace LinearScore

namespace Machine

/-- A common denominator that is held. -/
structure HeldDenominator (common : Nat) : Prop where
  positive : 0 < common
  small : common < limit64

theorem limit64_eq : limit64 = 2 ^ 63 := rfl

@[simp] theorem fits_integer (limit : Nat) (n : Int) : (integer limit n).fits = holds limit n := by
  rw [integer]

@[simp] theorem fits_fraction (q : Rat) : (fraction q).fits = holdsFraction q := by
  rw [fraction]

@[simp] theorem fits_commonMultiple (m n : Nat) :
    (commonMultiple m n).fits = holds limit64 (m.lcm n) := by
  rw [commonMultiple]

theorem holds_of_abs_lt {limit : Nat} {n : Int} (h : |(n : Rat)| < limit) :
    holds limit n = true := by
  obtain ⟨low, high⟩ := abs_lt.mp h
  have low : -(limit : Int) < n := by exact_mod_cast low
  have high : n < limit := by exact_mod_cast high
  simp only [holds, Bool.and_eq_true, decide_eq_true_eq]
  exact ⟨low.le, high⟩

theorem holds_natCast_iff {limit n : Nat} : holds limit n = true ↔ n < limit := by
  simp only [holds, Bool.and_eq_true, decide_eq_true_eq]
  omega

/-- Over a multiple of its denominator a fraction has a numerator. -/
theorem numeratorOver_eq {common : Nat} {q : Rat} (h : q.den ∣ common) :
    (numeratorOver common q : Rat) = q * common := by
  obtain ⟨k, rfl⟩ := h
  rw [numeratorOver, Nat.mul_div_cancel_left k q.den_pos]
  push_cast
  rw [← mul_assoc, Rat.mul_den_eq_num]

namespace HeldDenominator

variable {common : Nat} {p q : Rat} (held : HeldDenominator common)
include held

/-- A denominator that divides a held one is held. -/
theorem of_dvd {other : Nat} (h : other ∣ common) : HeldDenominator other :=
  ⟨Nat.pos_of_dvd_of_pos h held.positive, (Nat.le_of_dvd held.positive h).trans_lt held.small⟩

theorem holds {other : Nat} (h : other ∣ common) : Machine.holds limit64 other = true :=
  holds_natCast_iff.mpr (held.of_dvd h).small

/-- The numerator over another denominator that divides the common one is not larger. -/
theorem numeratorOver_le {other : Nat} (divides : q.den ∣ other) (le : other ∣ common) :
    |(numeratorOver other q : Rat)| ≤ |q| * common := by
  have less : (other : Rat) ≤ common := by exact_mod_cast Nat.le_of_dvd held.positive le
  rw [numeratorOver_eq divides, abs_mul, Nat.abs_cast]
  exact mul_le_mul_of_nonneg_left less (abs_nonneg q)

/-- A fraction whose numerator over the common denominator is held is held in lowest terms. -/
theorem holdsFraction (divides : q.den ∣ common) (bounded : |q| * common < limit64) :
    holdsFraction q = true := by
  have lowest : numeratorOver q.den q = q.num := by
    rw [numeratorOver, Nat.div_self q.den_pos, Nat.cast_one, mul_one]
  have numerator := held.numeratorOver_le (dvd_refl _) divides
  rw [lowest] at numerator
  rw [Machine.holdsFraction, Bool.and_eq_true]
  exact ⟨holds_of_abs_lt (numerator.trans_lt bounded), held.holds divides⟩

section Combine

variable (hp : p.den ∣ common) (hq : q.den ∣ common)
include hp hq

/-- Two numerators that are held are combined if the result is held. -/
theorem fits_combine {whole : Int → Int → Int} (result : Rat) (first : |p| * common < limit64)
    (second : |q| * common < limit64)
    (combined : |(whole (numeratorOver (p.den.lcm q.den) p)
      (numeratorOver (p.den.lcm q.den) q) : Rat)| < limit64) :
    (combine whole p q result).fits = true := by
  have multiple : p.den.lcm q.den ∣ common := Nat.lcm_dvd hp hq
  have left := held.numeratorOver_le (Nat.dvd_lcm_left p.den q.den) multiple
  have right := held.numeratorOver_le (Nat.dvd_lcm_right p.den q.den) multiple
  simp only [combine, commonMultiple, integer, Checked.fits_bind, Checked.fits_pure,
    Bool.and_true, Bool.and_eq_true]
  exact ⟨held.holds multiple, holds_of_abs_lt (left.trans_lt first),
    holds_of_abs_lt (right.trans_lt second), holds_of_abs_lt combined⟩

/-- Two numerators are combined if their sum is held and the result is not larger. -/
theorem fits_combine_of_le {whole : Int → Int → Int} (result : Rat)
    (bounded : (|p| + |q|) * common < limit64)
    (le : ∀ m n : Int, |(whole m n : Rat)| ≤ |(m : Rat)| + |(n : Rat)|) :
    (combine whole p q result).fits = true := by
  have multiple : p.den.lcm q.den ∣ common := Nat.lcm_dvd hp hq
  have left := held.numeratorOver_le (Nat.dvd_lcm_left p.den q.den) multiple
  have right := held.numeratorOver_le (Nat.dvd_lcm_right p.den q.den) multiple
  have nonneg (r : Rat) : 0 ≤ |r| * common := mul_nonneg (abs_nonneg r) (Nat.cast_nonneg _)
  rw [add_mul] at bounded
  refine held.fits_combine hp hq _ ?_ ?_ ((le _ _).trans_lt ?_)
  · linarith [nonneg q]
  · linarith [nonneg p]
  · linarith

/-- **A sum is computed without a number that is not held.** -/
theorem fits_add (bounded : (|p| + |q|) * common < limit64) : (add p q).fits = true :=
  held.fits_combine_of_le hp hq _ bounded fun m n => by
    push_cast
    exact abs_add_le _ _

/-- **So is a difference**, -/
theorem fits_subtract (bounded : (|p| + |q|) * common < limit64) :
    (subtract p q).fits = true :=
  held.fits_combine_of_le hp hq _ bounded fun m n => by
    push_cast
    exact abs_sub _ _

/-- and one of positive fractions whenever the first of them is held. -/
theorem fits_subtract_of_le (nonneg : 0 ≤ q) (le : q ≤ p) (bounded : p * common < limit64) :
    (subtract p q).fits = true := by
  have multiple : p.den.lcm q.den ∣ common := Nat.lcm_dvd hp hq
  have first := held.numeratorOver_le (Nat.dvd_lcm_left p.den q.den) multiple
  have denominator : (0 : Rat) ≤ (p.den.lcm q.den : Nat) := Nat.cast_nonneg _
  have less : q * common ≤ p * common := mul_le_mul_of_nonneg_right le (Nat.cast_nonneg _)
  refine held.fits_combine hp hq _ ?_ ?_ (lt_of_le_of_lt ?_ bounded)
  · rwa [abs_of_nonneg (nonneg.trans le)]
  · rw [abs_of_nonneg nonneg]
    exact less.trans_lt bounded
  · -- the difference lies between zero and the first numerator
    rw [abs_of_nonneg (nonneg.trans le), numeratorOver_eq (Nat.dvd_lcm_left ..),
      abs_of_nonneg (mul_nonneg (nonneg.trans le) denominator)] at first
    push_cast
    rw [numeratorOver_eq (Nat.dvd_lcm_left ..), numeratorOver_eq (Nat.dvd_lcm_right ..),
      ← sub_mul, abs_of_nonneg (mul_nonneg (sub_nonneg.mpr le) denominator)]
    exact (mul_le_mul_of_nonneg_right (sub_le_self p nonneg) denominator).trans first

end Combine

end HeldDenominator

end Machine

end LinearScore
