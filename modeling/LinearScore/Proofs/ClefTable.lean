import Mathlib.Data.List.Dedup
import Mathlib.Data.List.Induction
import Mathlib.Data.List.Sort
import LinearScore.Proofs.Rereading

/-!
# Clefs in normal form

Clefs are written from a table: one clef for each staff, the last one listed, by ascending staff.
The clefs that are read back are these, with the number of their staff if it was written.

## Main definitions

* `lastClef`: the clef of a staff in a list of clefs
* `clefRows`: the staves of a list of clefs in ascending order, each with its clef
* `normalClefs`: the clefs of the rows, numbered or not

The main statement is `shownClefs_clefTable`.
-/

namespace LinearScore

/-- The clef of a staff: the last one listed for it. -/
def lastClef (staff : Nat) (clefs : List Clef) : Option Clef :=
  (clefs.filter (·.staff = staff)).getLast?

/-- The staves of clefs in ascending order. -/
def clefStaves (clefs : List Clef) : List Nat :=
  (clefs.map Clef.staff).dedup.insertionSort (· ≤ ·)

/-- The staves of clefs in ascending order, each with its clef. -/
def clefRows (clefs : List Clef) : List (Nat × Clef) :=
  (clefStaves clefs).filterMap fun staff => (lastClef staff clefs).map fun c => (staff, c)

/-- The clefs in normal form: one for each staff, the last one listed, by ascending staff, all
with the number of their staff or all without. -/
def normalClefs (numbered : Bool) (clefs : List Clef) : List Clef :=
  (clefRows clefs).map fun row => { row.2 with number := if numbered then some row.1 else none }

/-- The row stands in front of the other one. -/
def RowBefore {α : Type} (a b : Nat × α) : Prop := a.1 < b.1

instance {α : Type} : Std.Irrefl (RowBefore (α := α)) := ⟨fun a => Nat.lt_irrefl a.1⟩

instance {α : Type} : Std.Antisymm (RowBefore (α := α)) :=
  ⟨fun _ _ h h' => absurd h (Nat.lt_asymm h')⟩

/-! ## The last clef of a staff -/

theorem lastClef_concat (staff : Nat) (clefs : List Clef) (c : Clef) :
    lastClef staff (clefs ++ [c]) = if c.staff = staff then some c else lastClef staff clefs := by
  unfold lastClef
  rw [List.filter_append]
  by_cases h : c.staff = staff
  · simp [h]
  · simp [h]

theorem lastClef_append (staff : Nat) (as bs : List Clef) :
    lastClef staff (as ++ bs) = (lastClef staff bs).or (lastClef staff as) := by
  unfold lastClef
  rw [List.filter_append, List.getLast?_append]

theorem staff_of_lastClef {staff : Nat} {clefs : List Clef} {c : Clef}
    (h : lastClef staff clefs = some c) : c.staff = staff ∧ c ∈ clefs := by
  have mem := List.mem_filter.mp (List.mem_of_getLast? h)
  exact ⟨by simpa using mem.2, mem.1⟩

theorem exists_lastClef {c : Clef} {clefs : List Clef} (h : c ∈ clefs) :
    ∃ last, lastClef c.staff clefs = some last := by
  rw [← Option.isSome_iff_exists, lastClef, List.getLast?_isSome]
  exact List.ne_nil_of_mem (List.mem_filter.mpr ⟨h, by simp⟩)

/-! ## Rows -/

theorem pairwise_clefStaves (clefs : List Clef) : (clefStaves clefs).Pairwise (· < ·) := by
  have sorted := List.pairwise_insertionSort (· ≤ ·) (clefs.map Clef.staff).dedup
  have nodup : (clefStaves clefs).Nodup :=
    (List.perm_insertionSort _ _).nodup_iff.mpr (List.nodup_dedup _)
  exact (sorted.and nodup).imp fun ⟨le, ne⟩ => Nat.lt_of_le_of_ne le ne

theorem mem_clefStaves {staff : Nat} {clefs : List Clef} :
    staff ∈ clefStaves clefs ↔ ∃ c ∈ clefs, c.staff = staff := by
  rw [clefStaves, List.mem_insertionSort, List.mem_dedup, List.mem_map]

theorem pairwise_clefRows (clefs : List Clef) : (clefRows clefs).Pairwise RowBefore := by
  refine List.Pairwise.filterMap _ (fun a b lt x hx y hy => ?_) (pairwise_clefStaves clefs)
  obtain ⟨c, -, rfl⟩ := Option.map_eq_some_iff.mp hx
  obtain ⟨c', -, rfl⟩ := Option.map_eq_some_iff.mp hy
  exact lt

theorem mem_clefRows {staff : Nat} {c : Clef} {clefs : List Clef} :
    (staff, c) ∈ clefRows clefs ↔ lastClef staff clefs = some c := by
  rw [clefRows, List.mem_filterMap]
  constructor
  · rintro ⟨k, -, h⟩
    obtain ⟨c', last, eq⟩ := Option.map_eq_some_iff.mp h
    cases eq
    exact last
  · intro last
    obtain ⟨eq, mem⟩ := staff_of_lastClef last
    exact ⟨staff, mem_clefStaves.mpr ⟨c, mem, eq⟩, by rw [last]; rfl⟩

/-- The clefs in normal form are among the clefs, but for their numbers. -/
theorem exists_of_mem_normalClefs {numbered : Bool} {clefs : List Clef} {c : Clef}
    (h : c ∈ normalClefs numbered clefs) : ∃ c' ∈ clefs, ∃ number, c = { c' with number } := by
  obtain ⟨row, mem, rfl⟩ := List.mem_map.mp h
  exact ⟨row.2, (staff_of_lastClef (mem_clefRows.mp mem)).2, _, rfl⟩

/-! ## The table -/

theorem pairwise_putStaff {staff : Nat} {t : Terminal} {table : List (Nat × Terminal)}
    (h : table.Pairwise RowBefore) : (putStaff staff t table).Pairwise RowBefore := by
  induction table with
  | nil => exact List.pairwise_singleton ..
  | cons row rest ih =>
    obtain ⟨other, u⟩ := row
    obtain ⟨first, later⟩ := List.pairwise_cons.mp h
    rw [putStaff]
    split
    · rename_i lt
      refine List.pairwise_cons.mpr ⟨List.forall_mem_cons.mpr ⟨lt, fun row mem => ?_⟩, h⟩
      exact Nat.lt_trans lt (first row mem)
    · rename_i ge
      split
      · rename_i eq
        cases eq
        exact List.pairwise_cons.mpr ⟨first, later⟩
      · rename_i ne
        refine List.pairwise_cons.mpr ⟨fun row mem => ?_, ih later⟩
        rcases mem_putStaff mem with rfl | mem
        · show other < staff
          omega
        · exact first row mem

/-- The entry that is put into a table replaces that of its staff. -/
theorem mem_putStaff_iff {staff k : Nat} {t u : Terminal} {table : List (Nat × Terminal)}
    (h : table.Pairwise RowBefore) :
    (k, u) ∈ putStaff staff t table ↔
      k = staff ∧ u = t ∨ k ≠ staff ∧ (k, u) ∈ table := by
  induction table with
  | nil =>
    rw [putStaff, List.mem_singleton, Prod.mk.injEq]
    simp
  | cons row rest ih =>
    obtain ⟨other, v⟩ := row
    obtain ⟨first, later⟩ := List.pairwise_cons.mp h
    have above : ∀ u, (staff, u) ∈ rest → other < staff := fun u mem => first _ mem
    rw [putStaff]
    split
    · rename_i lt
      have absent : ∀ u, (staff, u) ∉ (other, v) :: rest := by
        intro u mem
        rcases List.mem_cons.mp mem with eq | mem
        · cases eq
          exact Nat.lt_irrefl _ lt
        · exact Nat.lt_asymm lt (above u mem)
      rw [List.mem_cons, Prod.mk.injEq]
      by_cases hk : k = staff
      · subst hk
        simp [absent u]
      · simp [hk]
    · split
      · rename_i eq
        subst eq
        have absent : ∀ u, (staff, u) ∉ rest := fun u mem => Nat.lt_irrefl _ (above u mem)
        rw [List.mem_cons, List.mem_cons, Prod.mk.injEq, Prod.mk.injEq]
        by_cases hk : k = staff
        · subst hk
          simp [absent u]
        · simp [hk]
      · rename_i ne
        rw [List.mem_cons, List.mem_cons, ih later, Prod.mk.injEq]
        by_cases hk : k = staff
        · subst hk
          simp [ne]
        · simp [hk]

theorem clefTable_concat {clefs : List Clef} {c : Clef} {t : Terminal}
    (h : c.terminal? = some t) :
    clefTable (clefs ++ [c]) = putStaff c.staff t (clefTable clefs) := by
  rw [clefTable, List.foldl_append, List.foldl_cons, List.foldl_nil, h]
  rfl

section Table

variable {clefs : List Clef} (h : ∀ c ∈ clefs, c.terminal?.isSome = true)
include h

theorem clefTable_spec :
    (clefTable clefs).Pairwise RowBefore ∧ ∀ k t, (k, t) ∈ clefTable clefs ↔
      (lastClef k clefs).bind Clef.terminal? = some t := by
  induction clefs using List.reverseRecOn with
  | nil => exact ⟨List.Pairwise.nil, fun k t => by simp [clefTable, lastClef]⟩
  | append_singleton clefs c ih =>
    obtain ⟨sorted, mem⟩ := ih fun c hc => h c (List.mem_append_left _ hc)
    obtain ⟨u, hu⟩ := Option.isSome_iff_exists.mp
      (h c (List.mem_append_right _ (List.mem_singleton_self c)))
    rw [clefTable_concat hu]
    refine ⟨pairwise_putStaff sorted, fun k t => ?_⟩
    rw [mem_putStaff_iff sorted, mem, lastClef_concat]
    by_cases hk : c.staff = k
    · subst hk
      simp [hu, eq_comm]
    · rw [if_neg hk]
      simp [Ne.symm hk]

/-- The table holds the terminals of the rows. -/
theorem clefTable_eq_clefRows :
    clefTable clefs =
      (clefRows clefs).filterMap fun row => row.2.terminal?.map fun t => (row.1, t) := by
  obtain ⟨sorted, mem⟩ := clefTable_spec h
  refine sorted.eq_of_mem_iff (List.Pairwise.filterMap _ ?_ (pairwise_clefRows clefs)) ?_
  · intro a b lt x hx y hy
    obtain ⟨_, -, rfl⟩ := Option.map_eq_some_iff.mp hx
    obtain ⟨_, -, rfl⟩ := Option.map_eq_some_iff.mp hy
    exact lt
  · rintro ⟨k, t⟩
    rw [mem, List.mem_filterMap, Option.bind_eq_some_iff]
    constructor
    · rintro ⟨c, last, ht⟩
      exact ⟨(k, c), mem_clefRows.mpr last, by simp [ht]⟩
    · rintro ⟨⟨k', c⟩, row, eq⟩
      obtain ⟨u, ht, eq⟩ := Option.map_eq_some_iff.mp eq
      cases eq
      exact ⟨c, mem_clefRows.mp row, ht⟩

end Table

/-! ## Clefs that are read back -/

/-- The clef with the letter of its sign in upper case. -/
def Clef.upper (c : Clef) : Clef := { c with sign := c.sign.toUpper }

/-- The names of signs are the letters in upper case. -/
theorem toUpper_of_ofName? {name : String} {sign : ClefSign}
    (h : ClefSign.ofName? name = some sign) : sign.name = name.toUpper := by
  unfold ClefSign.ofName? at h
  split at h
  all_goals first | (cases h; decide +kernel) | cases h

theorem toUpper_name (sign : ClefSign) : sign.name.toUpper = sign.name := by
  cases sign <;> decide +kernel

/-- A clef of the vocabulary is read back with its sign in upper case. -/
theorem clef?_of_valid {c : Clef} {t : Terminal} (h : c.terminal? = some t)
    (valid : t.valid = true) (number : Option Nat) :
    t.clef? number = some { c.upper with number } := by
  obtain ⟨sign, named, rfl⟩ := Option.map_eq_some_iff.mp h
  have line : (clefLine c.line : Int) = c.line := by
    simp only [Terminal.valid, Bool.and_eq_true, decide_eq_true_eq] at valid
    have low : 1 ≤ sign.lines.1 := by cases sign <;> decide
    have positive := valid.1
    unfold clefLine at positive ⊢
    split
    · rename_i range
      simp only [Bool.and_eq_true, decide_eq_true_eq] at range
      exact Int.toNat_of_nonneg range.1
    · rename_i out
      rw [if_neg out] at positive
      omega
  show some (⟨number, sign.name, (clefLine c.line : Int)⟩ : Clef) = _
  rw [toUpper_of_ofName? named, line]
  rfl

/-- **The clefs that are read back are those in normal form**, with their signs in upper case. -/
theorem shownClefs_clefTable {clefs : List Clef} (h : ∀ c ∈ clefs, c.terminal?.isSome = true)
    (valid : ∀ entry ∈ clefTable clefs, entry.2.valid = true) (numbered : Bool) :
    shownClefs numbered (clefTable clefs) = (normalClefs numbered clefs).map Clef.upper := by
  have table := clefTable_eq_clefRows h
  rw [shownClefs, table, List.filterMap_filterMap, normalClefs, List.map_map,
    ← List.filterMap_eq_map]
  refine List.filterMap_congr fun ⟨staff, c⟩ row => ?_
  obtain ⟨t, ht⟩ := Option.isSome_iff_exists.mp (h c (staff_of_lastClef (mem_clefRows.mp row)).2)
  have mem : (staff, t) ∈ clefTable clefs := by
    rw [table]
    exact List.mem_filterMap.mpr ⟨(staff, c), row, by simp [ht]⟩
  simp only [ht, Option.map_some, Option.bind_some, Function.comp_apply]
  rw [clef?_of_valid ht (valid _ mem)]
  rfl

theorem filter_clefRows (staff : Nat) (clefs : List Clef) :
    (clefRows clefs).filter (·.1 = staff) =
      ((lastClef staff clefs).map fun c => (staff, c)).toList := by
  refine ((pairwise_clefRows clefs).filter _).eq_of_mem_iff ?_ ?_
  · cases lastClef staff clefs with
    | none => exact .nil
    | some c => exact List.pairwise_singleton ..
  · rintro ⟨k, c⟩
    rw [List.mem_filter, mem_clefRows, Option.mem_toList, Option.map_eq_some_iff]
    constructor
    · rintro ⟨last, eq⟩
      obtain rfl : k = staff := by simpa using eq
      exact ⟨c, last, rfl⟩
    · rintro ⟨c', last, eq⟩
      cases eq
      exact ⟨last, by simp⟩

/-- In a list of rows each staff has its clef. -/
theorem getLast?_filter_clefRows (staff : Nat) (clefs : List Clef) (f : Nat × Clef → Clef) :
    (((clefRows clefs).filter (·.1 = staff)).map f).getLast? =
      (lastClef staff clefs).map fun c => f (staff, c) := by
  rw [filter_clefRows]
  cases lastClef staff clefs with
  | none => rfl
  | some c => rfl

/-- Numbering the clefs keeps the clef of each staff. -/
theorem lastClef_normalClefs_true (staff : Nat) (clefs : List Clef) :
    lastClef staff (normalClefs true clefs) =
      (lastClef staff clefs).map fun c => { c with number := some staff } := by
  rw [lastClef, normalClefs, List.filter_map]
  exact getLast?_filter_clefRows staff clefs _

/-- Leaving the numbers out keeps the clef of each staff if all clefs are for the first one. -/
theorem lastClef_normalClefs_false {clefs : List Clef} (first : ∀ c ∈ clefs, c.staff = 1)
    (staff : Nat) :
    lastClef staff (normalClefs false clefs) =
      (lastClef staff clefs).map fun c => { c with number := none } := by
  have rows : (clefRows clefs).filter (fun _ => (1 : Nat) = staff) =
      (clefRows clefs).filter (·.1 = staff) := by
    refine List.filter_congr fun ⟨k, c⟩ row => ?_
    obtain ⟨eq, mem⟩ := staff_of_lastClef (mem_clefRows.mp row)
    rw [← eq, first c mem]
  rw [lastClef, normalClefs, List.filter_map]
  show (((clefRows clefs).filter fun _ => (1 : Nat) = staff).map _).getLast? = _
  rw [rows]
  exact getLast?_filter_clefRows staff clefs _

/-- Clefs in normal form are written like the clefs, unless the numbers that are left out are
needed. -/
theorem clefTable_normalClefs {clefs : List Clef} (h : ∀ c ∈ clefs, c.terminal?.isSome = true)
    {numbered : Bool} (first : numbered = false → ∀ c ∈ clefs, c.staff = 1) :
    clefTable (normalClefs numbered clefs) = clefTable clefs := by
  have normal : ∀ c ∈ normalClefs numbered clefs, c.terminal?.isSome = true := by
    intro c hc
    obtain ⟨c', mem, number, rfl⟩ := exists_of_mem_normalClefs hc
    exact h c' mem
  have last (staff : Nat) : (lastClef staff (normalClefs numbered clefs)).bind Clef.terminal? =
      (lastClef staff clefs).bind Clef.terminal? := by
    cases numbered with
    | true =>
      rw [lastClef_normalClefs_true]
      cases lastClef staff clefs <;> rfl
    | false =>
      rw [lastClef_normalClefs_false (first rfl)]
      cases lastClef staff clefs <;> rfl
  refine (clefTable_spec normal).1.eq_of_mem_iff (clefTable_spec h).1 ?_
  rintro ⟨staff, t⟩
  rw [(clefTable_spec normal).2, (clefTable_spec h).2, last]

/-- No clefs are left in normal form only if there were none. -/
theorem normalClefs_ne_nil {clefs : List Clef} (h : clefs ≠ []) (numbered : Bool) :
    normalClefs numbered clefs ≠ [] := by
  obtain ⟨c, hc⟩ := List.exists_mem_of_ne_nil _ h
  obtain ⟨last, hl⟩ := exists_lastClef hc
  exact List.ne_nil_of_mem (List.mem_map_of_mem (mem_clefRows.mpr hl))

end LinearScore
