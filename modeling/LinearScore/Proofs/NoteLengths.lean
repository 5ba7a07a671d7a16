import Mathlib.Data.Rat.Floor
import LinearScore.Encoding.Emission

/-!
# Lengths of notes and the nearest ticks

Every dot adds half of what the mark before it added, so the dots of a note close in on twice the
length of its type, and what is still missing halves with each of them.  The ticks of a note are
the integer nearest to its length times the divisions.  Only a fraction halfway between two integers
has two nearest ones, and then the one farther from zero is meant.  So the ticks are known from the
exact length alone, and the duration of a note is checked against nothing else.

The step that a further dot would add is computed behind each dot.  So the integers of the machine
give out at a number of dots under which the length itself would still be held.

## Main definitions

* `NearestAway`: the integer nearest to a fraction, a half going away from zero
* `NoteType.mostDots`: the greatest number of dots under which a length is computed
* `LengthHeld`: type, dots and ratio of a note whose length is computed

The main statements are `noteLength_eq`, `nearestAway_iff`, `expectedTicks_nearest` and
`durationEmissions_eq_nil_iff`.
-/

namespace LinearScore

/-! ## Types, dots and ratios -/

theorem NoteType.quarters_pos (t : NoteType) : 0 < t.quarters := by
  have rank : 0 < Nat.pow 2 t.rank := Nat.pow_pos (by decide)
  exact div_pos (by exact_mod_cast rank) (by norm_num)

/-- A type lasts twice as long as the one below it, and a quarter lasts one. -/
theorem NoteType.quarters_eq_zpow (t : NoteType) :
    t.quarters = 2 ^ ((t.rank : Int) - NoteType.quarter.rank) := by
  have unit : (256 : Rat) = 2 ^ NoteType.quarter.rank := by norm_num [NoteType.rank]
  rw [quarters, unit, zpow_sub₀ two_ne_zero, zpow_natCast, zpow_natCast]
  norm_cast

/-- The dots add up to twice the first step, less twice the step that a further dot would add. -/
theorem dotted_eq (length step : Rat) (dots : Nat) :
    dotted length step dots = length + step * (2 - 2 * 2 ^ (-(dots : Int))) := by
  -- a dot moves its own step into the length, and those behind it begin with half a step
  induction dots generalizing length step with
  | zero => simp [dotted]
  | succ dots ih =>
    have half : (2 : Rat) ^ (-((dots + 1 : Nat) : Int)) = 2 ^ (-(dots : Int)) / 2 := by
      rw [Nat.cast_succ, neg_add, ← sub_eq_add_neg, zpow_sub_one₀ two_ne_zero, div_eq_mul_inv]
    rw [dotted, ih, half]
    ring

theorem TupletRatio.factor_of_pos {r : TupletRatio} (h : 0 < r.actual) :
    r.factor = (r.normal : Rat) / r.actual := if_pos h

section Length

variable (t : NoteType) (dots : Nat) {ratio : Option TupletRatio}

/-- **The length of a note in closed form.** -/
theorem noteLength_eq (scales : ∀ r ∈ ratio, 0 < r.actual) :
    noteLength t dots ratio = t.quarters * (2 - 2 ^ (-(dots : Int))) *
      ratio.elim 1 fun r => (r.normal : Rat) / r.actual := by
  have factor : ratio.elim 1 TupletRatio.factor =
      ratio.elim 1 fun r => (r.normal : Rat) / r.actual := by
    cases ratio with
    | none => rfl
    | some r => exact TupletRatio.factor_of_pos (scales r rfl)
  rw [noteLength, dotted_eq, factor]
  ring

/-- The length of a note type without dots and ratio. -/
theorem noteLength_plain : noteLength t 0 none = t.quarters := by
  rw [noteLength, dotted, Option.elim_none, mul_one]

theorem noteLength_pos (valid : ∀ r ∈ ratio, (Terminal.ratio r).valid = true) :
    0 < noteLength t dots ratio := by
  have ranges (r : TupletRatio) (h : r ∈ ratio) : 0 < r.actual ∧ 0 < r.normal := by
    have range := valid r h
    simp only [Terminal.valid, Bool.and_eq_true, decide_eq_true_eq] at range
    exact ⟨range.1.1.1, range.1.2⟩
  have factor : 0 < ratio.elim 1 fun r => (r.normal : Rat) / r.actual := by
    cases ratio with
    | none => exact one_pos
    | some r =>
      obtain ⟨actual, normal⟩ := ranges r rfl
      exact div_pos (by exact_mod_cast normal) (by exact_mod_cast actual)
  have missing : (2 : Rat) ^ (-(dots : Int)) ≤ 1 :=
    zpow_le_one_of_nonpos₀ one_le_two (neg_nonpos.mpr (Int.natCast_nonneg dots))
  have marks : (0 : Rat) < 2 - 2 ^ (-(dots : Int)) :=
    sub_pos.mpr (missing.trans_lt one_lt_two)
  rw [noteLength_eq t dots fun r h => (ranges r h).1]
  exact mul_pos (mul_pos t.quarters_pos marks) factor

end Length

/-! ## Rounding -/

/-- The integer `k` is nearest to `q`, and of two nearest ones it is the one farther from zero. -/
structure NearestAway (q : Rat) (k : Int) : Prop where
  nearest : ∀ m : Int, |q - k| ≤ |q - m|
  away : ∀ m : Int, |q - m| = |q - k| → |m| ≤ |k|

theorem roundAway_of_nonneg {q : Rat} (h : 0 ≤ q) : roundAway q = round q := by
  rw [roundAway, if_pos h, round_eq]
  rfl

theorem roundAway_of_neg {q : Rat} (h : q < 0) : roundAway q = -round (-q) := by
  rw [roundAway, if_neg (not_le.mpr h), round_eq]
  rfl

/-- From zero on, rounding half up is rounding away from zero. -/
theorem nearestAway_round {q : Rat} (h : 0 ≤ q) : NearestAway q (round q) where
  nearest := round_le q
  away m same := by
    have near : |q - m| ≤ 1 / 2 := same.trans_le (abs_sub_round q)
    obtain ⟨low, high⟩ := abs_le.mp near
    have below : m ≤ round q := by
      rw [round_eq, Int.le_floor]
      linarith
    have above : 0 ≤ m := by
      have bound : ((-1 : Int) : Rat) < m := by
        push_cast
        linarith
      exact Int.lt_iff_add_one_le.mp (Int.cast_lt.mp bound)
    rw [abs_of_nonneg above]
    exact below.trans (le_abs_self _)

namespace NearestAway

variable {q : Rat} {k m : Int}

/-- Both sides of zero are alike. -/
theorem neg (h : NearestAway q k) : NearestAway (-q) (-k) := by
  have distance (m : Int) : |-q - m| = |q - (-m : Int)| := by
    rw [Int.cast_neg, ← abs_neg, neg_sub', neg_neg]
  constructor
  · intro m
    rw [distance, distance, neg_neg]
    exact h.nearest (-m)
  · intro m same
    rw [distance, distance, neg_neg] at same
    rw [← abs_neg m, abs_neg k]
    exact h.away (-m) same

theorem unique (hk : NearestAway q k) (hm : NearestAway q m) : k = m := by
  have distance : |q - k| = |q - m| := le_antisymm (hk.nearest m) (hm.nearest k)
  have size : |k| = |m| := le_antisymm (hm.away k distance) (hk.away m distance.symm)
  rcases abs_eq_abs.mp size with same | rfl
  · exact same
  · -- opposite integers are equally near to zero alone, and zero is nearest to itself
    rw [Int.cast_neg, sub_neg_eq_add, abs_eq_abs] at distance
    rcases distance with eq | eq
    · have zero : (m : Rat) = 0 := by linarith
      rw [Int.cast_eq_zero.mp zero, neg_zero]
    · have zero : q = 0 := by linarith
      have nearest := hm.nearest 0
      rw [zero, Int.cast_zero, sub_zero, abs_zero, abs_nonpos_iff, zero_sub, neg_eq_zero,
        Int.cast_eq_zero] at nearest
      rw [nearest, neg_zero]

theorem abs_sub_le (h : NearestAway q k) : |q - k| ≤ 1 / 2 :=
  (h.nearest (round q)).trans (abs_sub_round q)

/-- Rounding changes nothing exactly where nothing has to be rounded. -/
theorem eq_iff (h : NearestAway q k) : q = k ↔ q.den = 1 := by
  constructor
  · rintro rfl
    exact Rat.den_intCast k
  · intro whole
    have integer : (q.num : Rat) = q := Rat.coe_int_num_of_den_eq_one whole
    have nearest := h.nearest q.num
    rw [integer, sub_self, abs_zero, abs_nonpos_iff] at nearest
    exact sub_eq_zero.mp nearest

end NearestAway

theorem nearestAway_roundAway (q : Rat) : NearestAway q (roundAway q) := by
  rcases le_or_gt 0 q with h | h
  · rw [roundAway_of_nonneg h]
    exact nearestAway_round h
  · rw [roundAway_of_neg h]
    have mirrored := (nearestAway_round (neg_nonneg.mpr h.le)).neg
    rwa [neg_neg] at mirrored

/-- **Rounding gives the nearest integer**, and it is the only one. -/
theorem nearestAway_iff {q : Rat} {k : Int} : NearestAway q k ↔ k = roundAway q := by
  constructor
  · intro h
    exact h.unique (nearestAway_roundAway q)
  · rintro rfl
    exact nearestAway_roundAway q

/-! ## Lengths that are computed -/

/-- The greatest number of dots under which the length of a type is computed. -/
def NoteType.mostDots (t : NoteType) : Nat := min 62 (t.rank + 53)

/-- The length of a note is computed: there are not too many dots, and a ratio leaves a fraction
that is held. -/
def LengthHeld (t : NoteType) (dots : Nat) (ratio : Option TupletRatio) : Prop :=
  dots ≤ t.mostDots ∧
    (ratio.isSome = true → Machine.holdsFraction (noteLength t dots ratio) = true)

instance (t : NoteType) (dots : Nat) (ratio : Option TupletRatio) :
    Decidable (LengthHeld t dots ratio) :=
  inferInstanceAs (Decidable (_ ∧ _))

namespace Machine

/-- Fewer dots are the first steps of more dots. -/
theorem fits_dotted_of_le {length step : Rat} {m n : Nat} (le : m ≤ n)
    (fits : (dotted length step n).fits = true) : (dotted length step m).fits = true := by
  induction m generalizing length step n with
  | zero => rfl
  | succ m ih =>
    obtain ⟨n, rfl⟩ := Nat.exists_eq_add_of_lt le
    rw [dotted, Checked.fits_bind, Checked.fits_bind, Bool.and_eq_true, Bool.and_eq_true]
      at fits ⊢
    exact ⟨fits.1, fits.2.1, ih (Nat.le_add_right m n) fits.2.2⟩

theorem fits_dotted_iff (t : NoteType) (dots : Nat) :
    (dotted t.quarters (t.quarters / 2) dots).fits = true ↔ dots ≤ t.mostDots := by
  constructor
  · intro fits
    by_contra more
    have stops : (dotted t.quarters (t.quarters / 2) (t.mostDots + 1)).fits = false := by
      cases t <;> decide +kernel
    rw [fits_dotted_of_le (Nat.lt_of_not_le more) fits] at stops
    cases stops
  · intro le
    have most : (dotted t.quarters (t.quarters / 2) t.mostDots).fits = true := by
      cases t <;> decide +kernel
    exact fits_dotted_of_le le most

theorem fits_noteLength_iff (t : NoteType) (dots : Nat) {ratio : Option TupletRatio}
    (scales : ∀ r ∈ ratio, 0 < r.actual) :
    (noteLength t dots ratio).fits = true ↔ LengthHeld t dots ratio := by
  have half : (fraction (t.quarters / 2)).fits = true := by
    cases t <;> decide +kernel
  have dots_iff := fits_dotted_iff t dots
  cases ratio with
  | none =>
    simp only [noteLength, Checked.fits_bind, Checked.fits_pure, value_fraction, half,
      Bool.true_and, Bool.and_true, dots_iff, LengthHeld, Option.isSome_none,
      Bool.false_eq_true, false_implies, and_true]
  | some r =>
    have scaled : (fraction (LinearScore.dotted t.quarters (t.quarters / 2) dots * r.factor)).fits =
        holdsFraction (LinearScore.noteLength t dots (some r)) := rfl
    simp only [noteLength, Checked.fits_bind, value_fraction, half, Bool.true_and, value_dotted,
      if_pos (scales r rfl), scaled, Bool.and_eq_true, dots_iff, LengthHeld, Option.isSome_some,
      forall_const]

theorem fits_expectedTicks_iff (t : NoteType) (dots : Nat) {ratio : Option TupletRatio}
    (scales : ∀ r ∈ ratio, 0 < r.actual) (divisions : Int) :
    (expectedTicks t dots ratio divisions).fits = true ↔
      LengthHeld t dots ratio ∧
        holdsFraction (LinearScore.noteLength t dots ratio * divisions) = true := by
  rw [expectedTicks, Checked.fits_bind, value_noteLength, Bool.and_eq_true,
    fits_noteLength_iff t dots scales, Checked.fits_bind, Checked.fits_pure, Bool.and_true,
    fraction]

end Machine

/-! ## The ticks of a note -/

/-- **The ticks of a note.**  A type lasts a power of two, the dots bring it up to twice as much
less a part that halves with each of them, and a ratio scales it.  The exact ticks are this length
times the divisions.  Beside them stands the one integer nearest to them, half a tick going away
from zero, so the two are no farther apart than half a tick and agree exactly where the exact ticks
are whole.  So it is just where the length is computed and the exact ticks are held; elsewhere there
is no result. -/
theorem expectedTicks_nearest (t : NoteType) (dots : Nat) {ratio : Option TupletRatio}
    (scales : ∀ r ∈ ratio, 0 < r.actual) (divisions : Int) :
    t.quarters = 2 ^ ((t.rank : Int) - NoteType.quarter.rank) ∧
      noteLength t dots ratio = t.quarters * (2 - 2 ^ (-(dots : Int))) *
        (ratio.elim 1 fun r => (r.normal : Rat) / r.actual) ∧
      (Machine.noteLength t dots ratio).outcome =
        (if LengthHeld t dots ratio then some (noteLength t dots ratio) else none) ∧
      ∃ ticks : Int,
        (Machine.expectedTicks t dots ratio divisions).outcome =
          (if LengthHeld t dots ratio ∧
              Machine.holdsFraction (noteLength t dots ratio * divisions) = true then
            some (ticks, noteLength t dots ratio * divisions)
          else none) ∧
        (∀ k, NearestAway (noteLength t dots ratio * divisions) k ↔ k = ticks) ∧
        |noteLength t dots ratio * divisions - ticks| ≤ 1 / 2 ∧
        (noteLength t dots ratio * divisions = ticks ↔
          (noteLength t dots ratio * divisions).den = 1) := by
  have nearest := nearestAway_roundAway (noteLength t dots ratio * divisions)
  refine ⟨t.quarters_eq_zpow, noteLength_eq t dots scales, ?_, _, ?_,
    fun _ => nearestAway_iff, nearest.abs_sub_le, nearest.eq_iff⟩
  · rw [Checked.outcome, Machine.value_noteLength]
    exact if_congr (Machine.fits_noteLength_iff t dots scales) rfl rfl
  · rw [Checked.outcome, Machine.value_expectedTicks]
    exact if_congr (Machine.fits_expectedTicks_iff t dots scales divisions) rfl rfl

/-- Seven eighths with two dots in the time of four last half a quarter each, and of the two
integers nearest to `-5 / 2` ticks the lower one is meant. -/
theorem expectedTicks_septuplet :
    (∀ r ∈ some (⟨7, 4⟩ : TupletRatio), 0 < r.actual) ∧
      LengthHeld .eighth 2 (some ⟨7, 4⟩) ∧
      (Machine.noteLength .eighth 2 (some ⟨7, 4⟩)).outcome = some (1 / 2) ∧
      (Machine.expectedTicks .eighth 2 (some ⟨7, 4⟩) (-5)).outcome = some (-3, -5 / 2) ∧
      ∀ k, NearestAway (-5 / 2) k ↔ k = -3 := by
  have scales : ∀ r ∈ some (⟨7, 4⟩ : TupletRatio), 0 < r.actual := by decide
  have held : LengthHeld .eighth 2 (some ⟨7, 4⟩) := by decide +kernel
  obtain ⟨quarters, length, computed, ticks, eq, nearest, -⟩ :=
    expectedTicks_nearest .eighth 2 scales (-5)
  have half : noteLength .eighth 2 (some ⟨7, 4⟩) = 1 / 2 := by
    rw [length, quarters]
    norm_num [NoteType.rank]
  have exact : noteLength .eighth 2 (some ⟨7, 4⟩) * ((-5 : Int) : Rat) = -5 / 2 := by
    rw [half]
    norm_num
  rw [exact] at eq nearest
  obtain rfl : ticks = -3 := ((nearest (-3)).mp (nearestAway_iff.mpr (by decide +kernel))).symm
  rw [if_pos held, half] at computed
  rw [if_pos ⟨held, by decide +kernel⟩] at eq
  exact ⟨scales, held, computed, eq, nearest⟩

/-- A quarter with 62 dots has a length that is held, but none that is computed: the step of one
more dot is not held. -/
theorem noteLength_stops :
    Machine.holdsFraction (noteLength .quarter 62 none) = true ∧
      noteLength .quarter 62 none = (2 ^ 63 - 1) / 2 ^ 62 ∧
      (Machine.noteLength .quarter 62 none).outcome = none ∧
      (Machine.expectedTicks .quarter 62 none 1).outcome = none := by
  refine ⟨by decide +kernel, ?_, by decide +kernel, by decide +kernel⟩
  rw [noteLength_eq _ _ (by simp), NoteType.quarters_eq_zpow]
  norm_num

theorem faultIf_eq_nil {condition : Bool} {f : ScoreFault} :
    faultIf condition f = [] ↔ condition = false := by
  cases condition <;> simp [faultIf]

/-- **What the check of a note asks for**: a duration in the divisions in force passes exactly if
it is the whole number of ticks nearest to the length that the note says. -/
theorem durationEmissions_eq_nil_iff {n : Note} {t : NoteType} {divisions : Int} {duration : Rat}
    (typed : n.noteType = some t) (sounds : n.isMeasureRest = false)
    (lasts : n.duration = some duration) (fullMeasure : Option Rat) :
    durationEmissions (some divisions) fullMeasure n = [] ↔
      ∃ ticks : Int, NearestAway (noteLength t n.dots n.ratio * divisions) ticks ∧
        duration = ticks := by
  simp only [durationEmissions, lasts, sounds, typed, Bool.false_eq_true, if_false]
  rw [faultIf_eq_nil, decide_eq_false_iff_not, not_not]
  simp only [nearestAway_iff, exists_eq_left]
  exact eq_comm

end LinearScore
