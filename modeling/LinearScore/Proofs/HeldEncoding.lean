import LinearScore.Encoding.Part
import LinearScore.Proofs.BriefLengths
import LinearScore.Proofs.HeldTimes
import LinearScore.Proofs.InForce

/-!
# Encoding by the integers of the machine

Encoding stops at no defect of a part, but it does stop at a number that is not held.  What is
computed at an element besides the time behind it only depends on the element and on the divisions
in force, so a part is written to the end if these numbers are held under all divisions that the
part declares.

## Main definitions

* `Element.HeldUnder`: an element at which only numbers are computed that are held
* `Part.Held`: a part of which all elements are such

The main statements are `fits_ladder` and `Part.Held.fits_encode`.
-/

namespace LinearScore

/-! ## Ladders -/

namespace Machine

/-- The step of a ladder is held where that of the longest note type is. -/
theorem fits_ladderStep (t : NoteType) {d : Int} (positive : 0 < d) (small : 32 * d < limit64) :
    (fraction (t.quarters * d)).fits = true := by
  have numerator : t.quarters.num ≤ 32 ∧ 0 < t.quarters.den ∧ t.quarters.den < limit64 := by
    cases t <;> decide +kernel
  obtain ⟨most, least, held⟩ := numerator
  have whole : t.quarters * t.quarters.den = t.quarters.num := Rat.mul_den_eq_num _
  have divides : (t.quarters * d).den ∣ t.quarters.den := by
    have product := Rat.mul_den_dvd t.quarters d
    rwa [Rat.den_intCast, mul_one] at product
  have ticks : (0 : Rat) < d := by exact_mod_cast positive
  refine HeldDenominator.holdsFraction ⟨least, held⟩ divides ?_
  have most : (t.quarters.num : Rat) ≤ 32 := by exact_mod_cast most
  have small : (32 * d : Rat) < limit64 := by exact_mod_cast small
  rw [abs_of_pos (mul_pos t.quarters_pos ticks), mul_right_comm, whole]
  exact (mul_le_mul_of_nonneg_right most ticks.le).trans_lt small

/-- What remains of ticks while note types are taken from them is a fraction over the denominator of
the shortest type. -/
theorem fits_ladderFrom {d : Int} (positive : 0 < d) (small : 32 * d < limit64)
    (types : List NoteType) {remainder : Rat} (divides : remainder.den ∣ 256)
    (bounded : remainder * (256 : Nat) < limit64) :
    (ladderFrom d types remainder).fits = true := by
  have held : HeldDenominator 256 := ⟨by decide, by decide⟩
  induction types generalizing remainder with
  | nil => rfl
  | cons t types ih =>
    have step := fits_ladderStep t positive small
    have stepOver : (t.quarters * d).den ∣ 256 := by
      have units : t.quarters * (256 : Nat) = (2 ^ t.rank : Nat) := by
        rw [NoteType.quarters]
        norm_num
      refine den_dvd_of_mul_eq (n := (2 ^ t.rank : Nat) * d) ?_
      rw [mul_right_comm, units, Int.cast_mul, Int.cast_natCast]
    rw [ladderFrom]
    split
    · rw [Checked.fits_bind, step, Bool.true_and, value_fraction]
      split
      · rename_i taken
        rw [Bool.and_eq_true, decide_eq_true_eq, decide_eq_true_eq] at taken
        have less : (remainder - t.quarters * d) * (256 : Nat) < limit64 :=
          (mul_le_mul_of_nonneg_right (sub_le_self _ taken.1.le) (Nat.cast_nonneg _)).trans_lt
            bounded
        rw [Checked.fits_bind, value_subtract, Checked.fits_bind, Checked.fits_pure,
          Bool.and_true, Bool.and_eq_true]
        exact ⟨held.fits_subtract_of_le divides stepOver taken.1.le taken.2 bounded,
          ih (den_sub_dvd divides stepOver) less⟩
      · exact ih divides bounded
    · rfl

/-- **A ladder is computed** where the longest step is held, and the ticks in units of the shortest
type. -/
theorem fits_ladder {ticks d : Int} (positive : 0 < d) (small : 32 * d < limit64)
    (short : 256 * ticks < limit64) : (ladder ticks d).fits = true := by
  refine fits_ladderFrom positive small _ ?_ ?_
  · rw [Rat.den_intCast]
    exact one_dvd _
  · rw [mul_comm]
    exact_mod_cast short

end Machine

/-! ## Elements -/

/-- Only numbers are computed at an element that are held if these divisions are in force: the
length of a measure at a time signature, the ticks of a note that has a type, and the ladder of a
skip. -/
def Element.HeldUnder (d : Int) : Element → Prop
  | .attributes a => ∀ time ∈ a.time, (Machine.measureLength time).fits = true ∧
      Machine.holdsFraction (measureLength time * d) = true
  | .note n => n.duration.isSome = true → n.isMeasureRest = false →
      ∀ t ∈ n.noteType, (Machine.expectedTicks t n.dots n.ratio d).fits = true
  | .backup q | .forward q => 32 * d < Machine.limit64 ∧ 256 * q < Machine.limit64

/-- An element at which only numbers are computed that are held, whichever of some divisions are in
force; if it declares divisions, they are among them. -/
structure Element.HeldIn (units : Int → Prop) (e : Element) : Prop where
  declares : ∀ d ∈ e.divisions?, 0 < d → units d
  computed : ∀ d, units d → 0 < d → e.HeldUnder d
  ordered : ∀ q ∈ e.note?.bind Note.pitch?, (Machine.order q).fits = true

namespace EncodingState

/-- What elements before left of the divisions and of a pitch is held. -/
structure HeldIn (units : Int → Prop) (s : EncodingState) : Prop where
  divided : ∀ d ∈ s.divisions, units d ∧ 0 < d
  ordered : ∀ q ∈ s.sticky.previousPitch, (Machine.order q).fits = true

variable {units : Int → Prop} {s : EncodingState}

theorem heldIn_start : ({} : EncodingState).HeldIn units := ⟨forall_mem_none, forall_mem_none⟩

theorem HeldIn.startMeasure (h : s.HeldIn units) : s.startMeasure.HeldIn units :=
  ⟨h.divided, forall_mem_none⟩

/-- The ladder of a skip is computed. -/
theorem HeldIn.fits_skipArithmetic (h : s.HeldIn units) {q : Rat}
    (computed : ∀ d, units d → 0 < d → 32 * d < Machine.limit64 ∧ 256 * q < Machine.limit64) :
    (s.skipArithmetic q).fits = true := by
  unfold skipArithmetic
  split
  · rename_i d divided
    obtain ⟨unit, positive⟩ := h.divided d divided
    obtain ⟨step, short⟩ := computed d unit positive
    split
    · rfl
    · rename_i whole
      simp only [Bool.or_eq_true, decide_eq_true_eq, not_or, not_not] at whole
      have ticks : (q.num : Rat) = q := (Rat.den_eq_one_iff q).mp whole.1
      rw [← ticks] at short
      rw [Checked.fits_discard]
      exact Machine.fits_ladder positive step (by exact_mod_cast short)
  · rfl

variable {e : Element} (h : s.HeldIn units) (he : e.HeldIn units)
include h he

/-- The divisions behind attributes are those that they declare or those in front of them. -/
theorem HeldIn.divisionsAfter {a : Attributes} (eq : e = .attributes a) :
    ∀ d ∈ s.divisionsAfter a, units d ∧ 0 < d := by
  subst eq
  unfold EncodingState.divisionsAfter
  split
  · rename_i d declared
    split
    · rename_i positive
      intro d' hd
      cases hd
      exact ⟨he.declares d declared positive, positive⟩
    · exact h.divided
  · exact h.divided

theorem HeldIn.after : (s.after e).HeldIn units := by
  cases e with
  | attributes a => exact ⟨h.divisionsAfter he rfl, h.ordered⟩
  | note n => exact ⟨h.divided, he.ordered⟩
  | backup d => exact ⟨h.divided, forall_mem_none⟩
  | forward d => exact ⟨h.divided, h.ordered⟩

/-- All that is computed at an element besides the time behind it is held. -/
theorem HeldIn.fits_arithmetic (moved : (Machine.move s.onset e).fits = true) :
    (s.arithmetic e).fits = true := by
  cases e with
  | attributes a =>
    have length : (s.attributesArithmetic a).fits = true := by
      unfold attributesArithmetic
      split
      · rename_i time d timed divided
        obtain ⟨unit, positive⟩ := h.divisionsAfter he rfl d divided
        obtain ⟨length, ticks⟩ := he.computed d unit positive time timed
        rw [Checked.fits_bind, length, Checked.fits_discard, Machine.fits_fraction,
          Machine.value_measureLength, ticks]
        rfl
      · rfl
    simp only [arithmetic, Checked.fits_bind, Checked.fits_discard, length, moved, Bool.and_self]
  | note n =>
    have length : (s.lengthArithmetic n).fits = true := by
      unfold lengthArithmetic
      split
      · rename_i q t d lasts rest type divided
        obtain ⟨unit, positive⟩ := h.divided d divided
        rw [Checked.fits_discard]
        exact he.computed d unit positive (by rw [lasts]; rfl) rest t type
      · rfl
    have order : (s.orderArithmetic n).fits = true := by
      unfold orderArithmetic
      split
      · rename_i previous current _ before pitch
        rw [Checked.fits_bind, Checked.fits_discard, Checked.fits_discard,
          h.ordered previous before, he.ordered current pitch]
        rfl
      · rfl
    simp only [arithmetic, Checked.fits_bind, Checked.fits_discard, length, order, moved,
      Bool.and_self]
  | backup q =>
    have ladder := h.fits_skipArithmetic fun d unit positive => he.computed d unit positive
    simp only [arithmetic, Checked.fits_bind, Checked.fits_discard, ladder, moved, Bool.and_self]
  | forward q =>
    have ladder := h.fits_skipArithmetic fun d unit positive => he.computed d unit positive
    simp only [arithmetic, Checked.fits_bind, Checked.fits_discard, ladder, moved, Bool.and_self]

end EncodingState

/-! ## Parts -/

/-- The times of a part are fractions over one denominator that are held, and at its elements only
numbers are computed that are held under all divisions that it declares. -/
structure Part.Held (common : Nat) (p : Part) : Prop where
  denominator : Machine.HeldDenominator common
  divides : ∀ m ∈ p.measures, ∀ e ∈ m.elements, e.Over common
  short : ∀ m ∈ p.measures, stretch m.elements * common < Machine.limit64
  computed : ∀ d ∈ p.elements.filterMap Element.divisions?, 0 < d →
    ∀ e ∈ p.elements, e.HeldUnder d
  ordered : ∀ e ∈ p.elements, ∀ q ∈ e.note?.bind Note.pitch?, (Machine.order q).fits = true

/-- The time behind an element is the one that elements are placed at. -/
theorem onset_after (s : EncodingState) (e : Element) : (s.after e).onset = e.advance s.onset := by
  cases e <;> rfl

section Run

variable {common : Nat} (denominator : Machine.HeldDenominator common) {units : Int → Prop}
include denominator

/-- The elements of a measure are written, and what they leave is held. -/
theorem fits_elementArithmetic {es : List Element} {s : EncodingState} (h : s.HeldIn units)
    (held : ∀ e ∈ es, e.HeldIn units) (start : s.onset.den ∣ common)
    (divides : ∀ e ∈ es, e.Over common)
    (bounded : (|s.onset| + stretch es) * common < Machine.limit64) :
    (elementArithmetic s es).fits = true ∧ (es.foldl EncodingState.after s).HeldIn units := by
  induction es generalizing s with
  | nil => exact ⟨rfl, h⟩
  | cons e es ih =>
    obtain ⟨here, later⟩ := List.forall_mem_cons.mp held
    obtain ⟨overHere, overLater⟩ := List.forall_mem_cons.mp divides
    have scale : (0 : Rat) ≤ common := Nat.cast_nonneg common
    have step : |(s.after e).onset| + stretch es ≤ |s.onset| + stretch (e :: es) := by
      rw [onset_after, stretch_cons, ← add_assoc]
      exact add_le_add_left (abs_advance_le s.onset e) _
    have head : |s.onset| + |e.duration?.getD 0| ≤ |s.onset| + stretch (e :: es) := by
      rw [stretch_cons]
      exact add_le_add_right (le_add_of_nonneg_right (stretch_nonneg es)) _
    have moved := Machine.fits_move denominator start overHere
      ((mul_le_mul_of_nonneg_right head scale).trans_lt bounded)
    have behind : (s.after e).onset.den ∣ common := by
      rw [onset_after]
      exact overHere.den_advance start
    obtain ⟨rest, last⟩ := ih (h.after here) later behind overLater
      ((mul_le_mul_of_nonneg_right step scale).trans_lt bounded)
    refine ⟨?_, last⟩
    rw [elementArithmetic, Checked.fits_bind, h.fits_arithmetic here moved]
    exact rest

/-- The measures of a part are written. -/
theorem fits_encodeMeasures (part : String) {ms : List Measure} {s : EncodingState}
    (h : s.HeldIn units) (held : ∀ m ∈ ms, ∀ e ∈ m.elements, e.HeldIn units)
    (divides : ∀ m ∈ ms, ∀ e ∈ m.elements, e.Over common)
    (short : ∀ m ∈ ms, stretch m.elements * common < Machine.limit64) :
    (encodeMeasures part s ms).fits = true := by
  induction ms generalizing s with
  | nil => rfl
  | cons m ms ih =>
    obtain ⟨heldHere, heldLater⟩ := List.forall_mem_cons.mp held
    obtain ⟨overHere, overLater⟩ := List.forall_mem_cons.mp divides
    obtain ⟨shortHere, shortLater⟩ := List.forall_mem_cons.mp short
    have start : (|s.startMeasure.onset| + stretch m.elements) * common < Machine.limit64 := by
      rwa [show s.startMeasure.onset = 0 from rfl, abs_zero, zero_add]
    obtain ⟨fits, last⟩ := fits_elementArithmetic denominator h.startMeasure heldHere
      (one_dvd common) overHere start
    rw [encodeMeasures, Reported.fits_bind, Reported.fits_bind, Reported.fits_pure, Bool.and_true,
      Bool.and_eq_true]
    exact ⟨fits, ih last heldLater overLater shortLater⟩

end Run

/-- **A part is written to the end** if its times are held, and what is computed at its elements. -/
theorem Part.Held.fits_encode {common : Nat} {p : Part} (h : p.Held common) :
    p.encode.fits = true := by
  have held : ∀ m ∈ p.measures, ∀ e ∈ m.elements,
      e.HeldIn fun d => d ∈ p.elements.filterMap Element.divisions? := by
    intro m hm e he
    have mem : e ∈ p.elements := List.mem_flatMap.mpr ⟨m, hm, he⟩
    exact ⟨fun d hd _ => List.mem_filterMap.mpr ⟨e, mem, hd⟩,
      fun d hd positive => h.computed d hd positive e mem, h.ordered e mem⟩
  have terminals := fits_encodeMeasures h.denominator p.id EncodingState.heldIn_start held h.divides
    h.short
  rw [Part.encode, Reported.fits_bind, Part.encodeTerminals, terminals]
  rfl

end LinearScore
