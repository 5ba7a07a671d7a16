import LinearScore.Proofs.HeldNumbers
import LinearScore.Proofs.NoteLengths
import LinearScore.Proofs.WholeTicks

/-!
# Brief lengths

The payloads of the vocabulary are small, so all lengths that can be read are fractions over one
denominator, which only depends on how many dots a note has, and none lasts longer than 1024
quarters.  A few dots keep that denominator far from the bound of the integers, and with it
everything that is computed with a single length.

## Main definitions

* `commonLength`: the denominator of all lengths that have a limited number of dots
* `Brief`: a length that can be read

The main statements are `brief_noteLength` and `fits_noteLength_of_few`.
-/

namespace LinearScore

/-- A denominator of all lengths that can be read with a limited number of dots: the shortest type,
halved by every dot, and any ratio up to sixteen. -/
def commonLength (dots : Nat) : Nat := 2 ^ (8 + dots) * 720720

/-- A length that can be read with a limited number of dots. -/
structure Brief (dots : Nat) (q : Rat) : Prop where
  divides : q.den ∣ commonLength dots
  nonneg : 0 ≤ q
  short : q ≤ 1024

variable {dots : Nat}

theorem Brief.abs_le {q : Rat} (h : Brief dots q) : |q| ≤ 1024 := by
  rw [abs_of_nonneg h.nonneg]
  exact h.short

theorem commonLength_pos (dots : Nat) : 0 < commonLength dots :=
  Nat.mul_pos (Nat.two_pow_pos _) (by decide)

theorem den_dvd_of_mul_eq {q : Rat} {k : Nat} {n : Int} (h : q * (k : Rat) = n) : q.den ∣ k := by
  rw [← den_mul_natCast_eq_one_iff, h]
  exact Rat.den_intCast n

/-! ## Notes -/

section Note

variable {ratio : Option TupletRatio} (valid : ∀ r ∈ ratio, (Terminal.ratio r).valid = true)
include valid

theorem ranges_of_valid {r : TupletRatio} (h : r ∈ ratio) :
    (1 ≤ r.actual ∧ r.actual ≤ 16) ∧ 1 ≤ r.normal ∧ r.normal ≤ 16 := by
  have range := valid r h
  simp only [Terminal.valid, Bool.and_eq_true, decide_eq_true_eq] at range
  omega

/-- The factor of a ratio is a fraction over the least common multiple of small numbers. -/
theorem exists_ratio_mul : ∃ n : Nat, (ratio.elim 1 fun r => (r.normal : Rat) / r.actual) *
    (720720 : Nat) = n := by
  cases ratio with
  | none => exact ⟨720720, one_mul _⟩
  | some r =>
    obtain ⟨⟨least, most⟩, -, -⟩ := ranges_of_valid valid rfl
    have factor : ∀ n : Fin 17, 1 ≤ n.val → n.val ∣ 720720 := by decide
    obtain ⟨k, hk⟩ := factor ⟨r.actual, Nat.lt_succ_of_le most⟩ least
    have positive : (r.actual : Rat) ≠ 0 := by exact_mod_cast (Nat.ne_of_gt least)
    refine ⟨r.normal * k, ?_⟩
    rw [hk, Option.elim_some]
    push_cast
    field_simp

theorem ratio_le : (ratio.elim 1 fun r => (r.normal : Rat) / r.actual) ≤ 16 := by
  cases ratio with
  | none => norm_num [Option.elim_none]
  | some r =>
    obtain ⟨⟨least, -⟩, -, most⟩ := ranges_of_valid valid rfl
    have positive : (1 : Rat) ≤ r.actual := by exact_mod_cast least
    have normal : (r.normal : Rat) ≤ 16 := by exact_mod_cast most
    rw [Option.elim_some, div_le_iff₀ (by linarith)]
    linarith

/-- The type is a number of units, and each dot halves what is missing to twice that number. -/
theorem den_noteLength_dvd (t : NoteType) {d : Nat} (few : d ≤ dots) :
    (noteLength t d ratio).den ∣ commonLength dots := by
  have closed := noteLength_eq t d fun r h => (ranges_of_valid valid h).1.1
  obtain ⟨scaled, hscaled⟩ := exists_ratio_mul valid
  obtain ⟨more, rfl⟩ := Nat.exists_eq_add_of_le few
  have units : t.quarters * 2 ^ 8 = (2 ^ t.rank : Nat) := by
    rw [NoteType.quarters]
    norm_num
  have halves : (2 - 2 ^ (-(d : Int)) : Rat) * 2 ^ d = (2 ^ (d + 1) - 1 : Int) := by
    rw [zpow_neg, zpow_natCast, sub_mul, inv_mul_cancel₀ (pow_ne_zero d two_ne_zero)]
    push_cast
    ring
  refine den_dvd_of_mul_eq
    (n := (2 ^ t.rank : Nat) * (2 ^ (d + 1) - 1) * (2 ^ more : Nat) * scaled) ?_
  calc noteLength t d ratio * (commonLength (d + more) : Nat)
      = (t.quarters * 2 ^ 8) * ((2 - 2 ^ (-(d : Int))) * 2 ^ d) * 2 ^ more *
          ((ratio.elim 1 fun r => (r.normal : Rat) / r.actual) * (720720 : Nat)) := by
        rw [closed, commonLength]
        push_cast
        ring
    _ = _ := by
        rw [units, halves, hscaled]
        push_cast
        ring

/-- The longest type lasts 32 quarters, dots less than double it, and a ratio multiplies it by no
more than 16. -/
theorem noteLength_le (t : NoteType) (d : Nat) : noteLength t d ratio ≤ 1024 := by
  have closed := noteLength_eq t d fun r h => (ranges_of_valid valid h).1.1
  have type : t.quarters ≤ 32 := by
    cases t <;> decide +kernel
  have marks : (0 : Rat) ≤ 2 - 2 ^ (-(d : Int)) ∧ (2 - 2 ^ (-(d : Int)) : Rat) ≤ 2 := by
    have missing : (2 : Rat) ^ (-(d : Int)) ≤ 1 :=
      zpow_le_one_of_nonpos₀ one_le_two (neg_nonpos.mpr (Int.natCast_nonneg d))
    have positive : (0 : Rat) < 2 ^ (-(d : Int)) := zpow_pos two_pos _
    constructor <;> linarith
  have dotted : t.quarters * (2 - 2 ^ (-(d : Int))) ≤ 32 * 2 :=
    mul_le_mul type marks.2 marks.1 (by norm_num)
  have plain : 0 ≤ t.quarters * (2 - 2 ^ (-(d : Int))) := mul_nonneg t.quarters_pos.le marks.1
  rw [closed]
  calc t.quarters * (2 - 2 ^ (-(d : Int))) *
        (ratio.elim 1 fun r => (r.normal : Rat) / r.actual)
      ≤ t.quarters * (2 - 2 ^ (-(d : Int))) * 16 :=
        mul_le_mul_of_nonneg_left (ratio_le valid) plain
    _ ≤ 32 * 2 * 16 := mul_le_mul_of_nonneg_right dotted (by norm_num)
    _ = 1024 := by norm_num

/-- **The length of a note with few dots is brief.** -/
theorem brief_noteLength (t : NoteType) {d : Nat} (few : d ≤ dots) :
    Brief dots (noteLength t d ratio) :=
  ⟨den_noteLength_dvd valid t few, (noteLength_pos t d valid).le, noteLength_le valid t d⟩

end Note

/-! ## Measures -/

section Measure

variable {time : TimeSignature} (beats : (Terminal.beats time.beats).valid = true)
  (beatType : (Terminal.beatType time.beatType).valid = true)
include beats beatType

/-- The length of a measure is a fraction over the largest beat type, and short. -/
theorem den_measureLength : (measureLength time).den ∣ 2 ^ 6 ∧ 0 ≤ measureLength time ∧
    measureLength time ≤ 1024 := by
  have most : time.beats ≤ 32 := by
    simp only [Terminal.valid, Bool.and_eq_true, decide_eq_true_eq] at beats
    exact beats.2
  have known : time.beatType ∣ 2 ^ 6 ∧ 1 ≤ time.beatType := by
    have member : time.beatType ∈ Terminal.beatTypes := by
      simpa [Terminal.valid] using beatType
    have all : ∀ n ∈ Terminal.beatTypes, n ∣ 2 ^ 6 ∧ 1 ≤ n := by decide
    exact all _ member
  obtain ⟨⟨k, hk⟩, least⟩ := known
  have positive : (1 : Rat) ≤ time.beatType := by exact_mod_cast least
  have nonzero : (time.beatType : Rat) ≠ 0 := by linarith
  have short : (time.beats : Rat) ≤ 32 := by exact_mod_cast most
  have start : (0 : Rat) ≤ time.beats := Nat.cast_nonneg _
  have length : measureLength time = time.beats * 4 / time.beatType := by
    rw [measureLength, Nat.max_eq_left least]
    push_cast
    rfl
  refine ⟨?_, ?_, ?_⟩
  · have whole : measureLength time * (2 ^ 6 : Nat) = (time.beats * 4 * k : Nat) := by
      rw [length, hk]
      push_cast
      field_simp
    exact den_dvd_of_mul_eq (n := (time.beats * 4 * k : Nat)) (by exact_mod_cast whole)
  · rw [length]
    exact div_nonneg (mul_nonneg start (by norm_num)) (by linarith)
  · rw [length, div_le_iff₀ (by linarith)]
    nlinarith

/-- **The length of a measure is brief.** -/
theorem brief_measureLength (dots : Nat) : Brief dots (measureLength time) := by
  obtain ⟨divides, nonneg, short⟩ := den_measureLength beats beatType
  have dvd : 2 ^ 6 ∣ commonLength dots :=
    (pow_dvd_pow 2 (by omega : 6 ≤ 8 + dots)).mul_right _
  exact ⟨divides.trans dvd, nonneg, short⟩

end Measure

/-! ## By the integers of the machine -/

namespace Machine

/-- The common denominator of lengths with few dots is held. -/
theorem heldDenominator_commonLength (few : dots ≤ 25) : HeldDenominator (commonLength dots) where
  positive := commonLength_pos dots
  small := by
    have power : 2 ^ (8 + dots) ≤ 2 ^ 33 := Nat.pow_le_pow_right (by decide) (by omega)
    have product := Nat.mul_le_mul_right 720720 power
    exact lt_of_le_of_lt product (by norm_num [limit64_eq])

/-- A brief length is held over it. -/
theorem brief_mul_lt (few : dots ≤ 25) {q : Rat} (brief : Brief dots q) :
    |q| * (commonLength dots : Rat) < limit64 := by
  have power : 2 ^ (8 + dots) ≤ 2 ^ 33 := Nat.pow_le_pow_right (by decide) (by omega)
  have product := Nat.mul_le_mul_right 720720 power
  have common : (commonLength dots : Rat) ≤ (2 ^ 33 * 720720 : Nat) := by exact_mod_cast product
  calc |q| * (commonLength dots : Rat)
      ≤ 1024 * (2 ^ 33 * 720720 : Nat) :=
        mul_le_mul brief.abs_le common (Nat.cast_nonneg _) (by norm_num)
    _ < limit64 := by norm_num [limit64_eq]

/-- **The length of a note with few dots is computed.** -/
theorem fits_noteLength_of_few {ratio : Option TupletRatio}
    (valid : ∀ r ∈ ratio, (Terminal.ratio r).valid = true) (t : NoteType) {d : Nat}
    (le : d ≤ dots) (few : dots ≤ 25) : (noteLength t d ratio).fits = true := by
  have brief := brief_noteLength valid t le
  rw [fits_noteLength_iff t d fun r h => (ranges_of_valid valid h).1.1]
  refine ⟨?_, fun _ => ?_⟩
  · have most : 25 ≤ t.mostDots := by
      cases t <;> decide
    omega
  · exact (heldDenominator_commonLength few).holdsFraction brief.divides (brief_mul_lt few brief)

/-- **The length of a measure is computed.** -/
theorem fits_measureLength_of_valid {time : TimeSignature}
    (beats : (Terminal.beats time.beats).valid = true)
    (beatType : (Terminal.beatType time.beatType).valid = true) :
    (measureLength time).fits = true := by
  have brief := brief_measureLength beats beatType 0
  have most : time.beats ≤ 32 := by
    simp only [Terminal.valid, Bool.and_eq_true, decide_eq_true_eq] at beats
    exact beats.2
  have numerator : holds limit64 (time.beats * 4 : Nat) = true := by
    rw [holds_natCast_iff, limit64]
    omega
  have fraction : holdsFraction (LinearScore.measureLength time) = true :=
    (heldDenominator_commonLength (Nat.zero_le 25)).holdsFraction brief.divides
      (brief_mul_lt (Nat.zero_le 25) brief)
  rw [measureLength, Checked.fits_bind, fits_integer, fits_fraction, Bool.and_eq_true]
  exact ⟨numerator, fraction⟩

end Machine

end LinearScore
