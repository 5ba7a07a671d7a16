import Mathlib.Algebra.Order.Field.Rat
import Mathlib.Tactic.Ring
import Mathlib.Tactic.NormNum
import LinearScore.Proofs.NoteLengths
import LinearScore.Proofs.Writing

/-!
# Ladders

A backup or forward is written as note types from the longest to the shortest.  Where nothing
remains, the types add up to its duration in quarters, and merging the backups or forwards that
they are read as gives one of that duration.

## Main definitions

* `piece`: the backup or forward of a marker

The main statements are `Splits.sum_quarters` and `mergeSkips_pieces`.
-/

namespace LinearScore

/-- The note types of a ladder and what remains add up to the ticks. -/
theorem sum_ladderFrom (divisions : Int) (types : List NoteType) (ticks : Rat) :
    ((ladderFrom divisions types ticks).1.map NoteType.quarters).sum * divisions +
      (ladderFrom divisions types ticks).2 = ticks := by
  induction types generalizing ticks with
  | nil => simp [ladderFrom]
  | cons t types ih =>
    rw [ladderFrom]
    dsimp only
    split
    · rw [List.map_cons, List.sum_cons, add_mul, add_assoc, ih]
      ring
    · exact ih ticks

/-- A note type is only taken where divisions are positive. -/
theorem divisions_pos_of_mem_ladderFrom {divisions : Int} {types : List NoteType} {ticks : Rat}
    {t : NoteType} (h : t ∈ (ladderFrom divisions types ticks).1) : 0 < divisions := by
  induction types generalizing ticks with
  | nil => cases h
  | cons u types ih =>
    rw [ladderFrom] at h
    dsimp only at h
    split at h
    · rename_i fits
      simp only [Bool.and_eq_true, decide_eq_true_eq] at fits
      exact_mod_cast (mul_pos_iff_of_pos_left u.quarters_pos).mp fits.1.2
    · exact ih h

namespace Splits

variable {divisions : Int} {duration : Rat} (h : Splits (some divisions) duration)
include h

theorem num_eq : ((duration.num : Int) : Rat) = duration :=
  Rat.coe_int_num_of_den_eq_one h.whole

theorem sum_mul : ((ladder duration.num divisions).1.map NoteType.quarters).sum * divisions =
    duration := by
  have sum := sum_ladderFrom divisions NoteType.all.reverse duration.num
  have exact := h.exact divisions rfl
  rw [ladder] at exact
  rw [exact, add_zero] at sum
  exact sum.trans h.num_eq

theorem types_ne_nil : (ladder duration.num divisions).1 ≠ [] := by
  intro none
  have sum := h.sum_mul
  rw [none] at sum
  simp only [List.map_nil, List.sum_nil, zero_mul] at sum
  exact absurd h.positive (by rw [← sum]; exact lt_irrefl 0)

theorem divisions_pos : 0 < divisions := by
  obtain ⟨t, ht⟩ := List.exists_mem_of_ne_nil _ h.types_ne_nil
  exact divisions_pos_of_mem_ladderFrom ht

/-- The note types add up to the duration in quarters. -/
theorem sum_quarters : ((ladder duration.num divisions).1.map NoteType.quarters).sum =
    duration / divisions := by
  have pos : (0 : Rat) < divisions := by exact_mod_cast h.divisions_pos
  rw [eq_div_iff pos.ne', h.sum_mul]

end Splits

/-! ## Pieces -/

/-- The backup or forward that a marker stands for. -/
def piece (marker : Terminal) (duration : Rat) : Element :=
  if marker = .backup then .backup duration else .forward duration

theorem joinSkip_piece (marker : Terminal) (a b : Rat) (es : List Element) :
    joinSkip (piece marker a) (joinSkip (piece marker b) es) =
      joinSkip (piece marker (a + b)) es := by
  unfold piece
  split
  · cases es with
    | nil => rfl
    | cons e es =>
      cases e with
      | backup c => simp [joinSkip, add_assoc]
      | _ => rfl
  · cases es with
    | nil => rfl
    | cons e es =>
      cases e with
      | forward c => simp [joinSkip, add_assoc]
      | _ => rfl

theorem mergeSkips_append (as bs : List Element) :
    mergeSkips (as ++ bs) = as.foldr joinSkip (mergeSkips bs) := List.foldr_append

/-- What merges to the same elements does so behind the same elements. -/
theorem mergeSkips_congr {as bs : List Element} (h : mergeSkips as = mergeSkips bs)
    (front : List Element) : mergeSkips (front ++ as) = mergeSkips (front ++ bs) := by
  rw [mergeSkips_append, mergeSkips_append, h]

/-- Pieces that follow each other merge into one. -/
theorem mergeSkips_pieces (marker : Terminal) {types : List NoteType} (h : types ≠ [])
    (es : List Element) :
    mergeSkips (types.map (fun t => piece marker t.quarters) ++ es) =
      mergeSkips (piece marker (types.map NoteType.quarters).sum :: es) := by
  induction types with
  | nil => exact absurd rfl h
  | cons t types ih =>
    cases types with
    | nil => simp
    | cons u types =>
      have rest := ih (List.cons_ne_nil _ _)
      rw [List.map_cons, List.cons_append]
      show joinSkip (piece marker t.quarters) (mergeSkips _) = _
      rw [rest]
      exact joinSkip_piece ..

end LinearScore
