import Mathlib.Data.List.DropRight
import Mathlib.Data.List.TakeDrop
import Mathlib.Data.List.TakeWhile

/-!
# Lists cut at separators

The front of a list up to the first separator, and the pieces of a list between its separators:
what they hold, and how many there are.

The main statements are `of_mem_splitOnP`, `length_splitOnP` and `splitOnP_alternating`.
-/

namespace LinearScore

variable {α β : Type}

/-- The front of a list up to the first member without a property. -/
theorem span_append_cons {p : α → Bool} {as : List α} {b : α} (has : ∀ a ∈ as, p a = true)
    (hb : p b = false) (bs : List α) : (as ++ b :: bs).span p = (as, b :: bs) := by
  rw [List.span_eq_takeWhile_dropWhile, List.takeWhile_append_of_pos has,
    List.dropWhile_append_of_pos has, List.takeWhile_cons_of_neg (by simp [hb]),
    List.dropWhile_cons_of_neg (by simp [hb]), List.append_nil]

/-- The end of a list behind the last member without a property. -/
theorem rtakeWhile_append (p : α → Bool) (as bs : List α) :
    (as ++ bs).rtakeWhile p = if bs.all p then as.rtakeWhile p ++ bs else bs.rtakeWhile p := by
  induction bs using List.reverseRecOn with
  | nil => simp
  | append_singleton bs b ih =>
    rw [← List.append_assoc, List.rtakeWhile_concat, List.rtakeWhile_concat, ih]
    by_cases hb : p b
    · by_cases hbs : bs.all p
      · simp [hb, hbs]
      · simp [hb, hbs]
    · simp [hb]

/-- The pieces of the images are the images of the pieces. -/
theorem splitOnP_map (g : α → β) (p : β → Bool) (as : List α) :
    (as.map g).splitOnP p = (as.splitOnP (p ∘ g)).map (List.map g) := by
  induction as with
  | nil => rfl
  | cons a as ih =>
    rw [List.map_cons, List.splitOnP_cons_eq_if_modifyHead, List.splitOnP_cons_eq_if_modifyHead,
      ih, Function.comp_apply]
    split
    · rfl
    · cases as.splitOnP (p ∘ g) <;> rfl

/-- A cut at separators gives one piece more than there are separators. -/
theorem length_splitOnP (separates : α → Bool) (as : List α) :
    (as.splitOnP separates).length = as.countP separates + 1 := by
  induction as with
  | nil => rfl
  | cons a as ih =>
    rw [List.splitOnP_cons_eq_if_modifyHead, List.countP_cons]
    split
    · rw [List.length_cons, ih]
    · rw [List.length_modifyHead, ih]

/-- The pieces hold what the list holds, but no separators. -/
theorem of_mem_splitOnP {separates : α → Bool} {as piece : List α}
    (h : piece ∈ as.splitOnP separates) : ∀ a ∈ piece, a ∈ as ∧ separates a = false := by
  induction as generalizing piece with
  | nil =>
    obtain rfl := List.mem_singleton.mp h
    exact List.forall_mem_nil _
  | cons b as ih =>
    have later {piece : List α} (h : piece ∈ as.splitOnP separates) :
        ∀ a ∈ piece, a ∈ b :: as ∧ separates a = false :=
      fun a ha => ⟨List.mem_cons_of_mem _ (ih h a ha).1, (ih h a ha).2⟩
    rw [List.splitOnP_cons_eq_if_modifyHead] at h
    split at h
    · rcases List.mem_cons.mp h with rfl | h
      · exact List.forall_mem_nil _
      · exact later h
    · rename_i kept
      cases pieces : as.splitOnP separates with
      | nil => exact absurd pieces (List.splitOnP_ne_nil _ _)
      | cons head others =>
        rw [pieces] at h later
        rcases List.mem_cons.mp h with rfl | h
        · exact List.forall_mem_cons.mpr
            ⟨⟨List.mem_cons_self, Bool.eq_false_iff.mpr kept⟩, later List.mem_cons_self⟩
        · exact later (List.mem_cons_of_mem _ h)

/-- The first piece stands in front of the first separator. -/
theorem head?_splitOnP (separates : α → Bool) (as : List α) :
    (as.splitOnP separates).head? = some (as.takeWhile (!separates ·)) := by
  induction as with
  | nil => rfl
  | cons a as ih =>
    rw [List.splitOnP_cons_eq_if_modifyHead]
    split
    · rename_i separated
      simp [separated]
    · rename_i kept
      rw [List.head?_modifyHead, ih]
      simp [kept]

/-- The pieces together are the list without its separators. -/
theorem flatten_splitOnP (separates : α → Bool) (as : List α) :
    (as.splitOnP separates).flatten = as.filter (!separates ·) := by
  induction as with
  | nil => rfl
  | cons a as ih =>
    rw [List.splitOnP_cons_eq_if_modifyHead]
    split
    · rename_i separated
      simp [separated, ih]
    · rename_i kept
      rw [List.filter_cons_of_pos (by simp [kept]), ← ih]
      cases pieces : as.splitOnP separates with
      | nil => exact absurd pieces (List.splitOnP_ne_nil _ _)
      | cons head others => rfl

section Alternating

variable {separates : α → Bool} {separator : α} (hs : separates separator = true) (a : α)
  (as : List α)
include hs

/-- Members with one separator between any two are pieces of their own. -/
theorem splitOnP_alternating (h : ∀ b ∈ a :: as, separates b = false) :
    (a :: as.flatMap fun b => [separator, b]).splitOnP separates = (a :: as).map fun b => [b] := by
  induction as generalizing a with
  | nil => exact List.splitOnP_eq_singleton h
  | cons b as ih =>
    obtain ⟨first, rest⟩ := List.forall_mem_cons.mp h
    have alone : ∀ x ∈ [a], separates x = false := List.forall_mem_singleton.mpr first
    exact (List.splitOnP_append_cons_of_forall_mem alone separator hs _).trans
      (congrArg ([a] :: ·) (ih b rest))

/-- A member that separates is counted beside the separators. -/
theorem countP_alternating :
    (a :: as.flatMap fun b => [separator, b]).countP separates =
      as.length + (a :: as).countP separates := by
  induction as generalizing a with
  | nil => simp
  | cons b as ih =>
    rw [List.flatMap_cons, List.countP_cons, List.cons_append, List.countP_cons_of_pos hs,
      List.singleton_append, ih b, List.countP_cons (a := a), List.length_cons]
    omega

end Alternating

end LinearScore
