import LinearScore.Diagnostic.Basic
import LinearScore.Checked

/-!
# Results with diagnostics

A computation that goes on past defects has a value and the diagnostics in the order recorded.  Only
a number that the integers of the machine do not hold stops it.

## Main definitions

* `Reported`: a value with diagnostics, as a monad
* `report`: the computation that records one diagnostic
* `Checked.reported`, `Reported.checked`: arithmetic as a computation that records nothing, and back
* `Reported.outcome`: what the program arrives at, if it does not stop
* `Reported.unbounded`: the computation with integers of any size, which never stops

The value of a sequence of computations never depends on what was recorded, as `value_bind` shows,
and the records are put one after the other, as `diagnostics_bind` shows.  So the computations obey
the laws of a monad.
-/

namespace LinearScore

/-- A value and the diagnostics recorded on the way to it. -/
@[ext]
structure Reported (α : Type) where
  value : α
  diagnostics : List Diagnostic := []
  /-- Every number on the way is held by the integers of the machine. -/
  fits : Bool := true

namespace Reported

instance : Monad Reported where
  pure a := ⟨a, [], true⟩
  bind x f :=
    ⟨(f x.value).value, x.diagnostics ++ (f x.value).diagnostics, x.fits && (f x.value).fits⟩

variable {α β : Type}

/-- What the program arrives at: nothing where it stops at a number that is not held. -/
def outcome (x : Reported α) : Option (α × List Diagnostic) :=
  if x.fits then some (x.value, x.diagnostics) else none

@[simp] theorem value_pure (a : α) : (pure a : Reported α).value = a := rfl

@[simp] theorem diagnostics_pure (a : α) : (pure a : Reported α).diagnostics = [] := rfl

@[simp] theorem fits_pure (a : α) : (pure a : Reported α).fits = true := rfl

@[simp] theorem value_bind (x : Reported α) (f : α → Reported β) :
    (x >>= f).value = (f x.value).value := rfl

@[simp] theorem diagnostics_bind (x : Reported α) (f : α → Reported β) :
    (x >>= f).diagnostics = x.diagnostics ++ (f x.value).diagnostics := rfl

@[simp] theorem fits_bind (x : Reported α) (f : α → Reported β) :
    (x >>= f).fits = (x.fits && (f x.value).fits) := rfl

@[simp] theorem value_map (f : α → β) (x : Reported α) : (f <$> x).value = f x.value := rfl

@[simp] theorem diagnostics_map (f : α → β) (x : Reported α) :
    (f <$> x).diagnostics = x.diagnostics := List.append_nil _

@[simp] theorem fits_map (f : α → β) (x : Reported α) : (f <$> x).fits = x.fits :=
  Bool.and_true _

instance : LawfulMonad Reported := LawfulMonad.mk' Reported
  (fun _ => Reported.ext rfl (List.append_nil _) (Bool.and_true _))
  (fun _ _ => Reported.ext rfl (List.nil_append _) (Bool.true_and _))
  (fun _ _ _ => Reported.ext rfl (List.append_assoc ..) (Bool.and_assoc ..))

theorem outcome_eq_some_iff {x : Reported α} {r : α × List Diagnostic} :
    x.outcome = some r ↔ x.fits = true ∧ x.value = r.1 ∧ x.diagnostics = r.2 := by
  rw [outcome, Option.ite_none_right_eq_some, Option.some_inj, Prod.ext_iff]

theorem outcome_of_fits {x : Reported α} (h : x.fits = true) :
    x.outcome = some (x.value, x.diagnostics) :=
  if_pos h

theorem outcome_eq_none_iff {x : Reported α} : x.outcome = none ↔ x.fits = false := by
  simp [outcome]

end Reported

/-- A computation with diagnostics as arithmetic that has all of it as its value. -/
def Reported.checked {α : Type} (x : Reported α) : Checked (Reported α) := ⟨x, x.fits⟩

@[simp] theorem Reported.value_checked {α : Type} (x : Reported α) : x.checked.value = x := rfl

@[simp] theorem Reported.fits_checked {α : Type} (x : Reported α) : x.checked.fits = x.fits := rfl

/-- Arithmetic as a computation that records nothing. -/
def Checked.reported {α : Type} (x : Checked α) : Reported α := ⟨x.value, [], x.fits⟩

@[simp] theorem Checked.value_reported {α : Type} (x : Checked α) :
    x.reported.value = x.value := rfl

@[simp] theorem Checked.diagnostics_reported {α : Type} (x : Checked α) :
    x.reported.diagnostics = [] := rfl

@[simp] theorem Checked.fits_reported {α : Type} (x : Checked α) :
    x.reported.fits = x.fits := rfl

/-- The computation with integers of any size. -/
def Reported.unbounded {α : Type} (x : Reported α) : Reported α := { x with fits := true }

section Unbounded

variable {α β : Type}

@[simp] theorem Reported.value_unbounded (x : Reported α) : x.unbounded.value = x.value := rfl

@[simp] theorem Reported.diagnostics_unbounded (x : Reported α) :
    x.unbounded.diagnostics = x.diagnostics := rfl

@[simp] theorem Reported.unbounded_pure (a : α) : (pure a : Reported α).unbounded = pure a := rfl

@[simp] theorem Reported.unbounded_bind (x : Reported α) (f : α → Reported β) :
    (x >>= f).unbounded = x.unbounded >>= fun a => (f a).unbounded := rfl

@[simp] theorem Reported.unbounded_map (f : α → β) (x : Reported α) :
    (f <$> x).unbounded = f <$> x.unbounded := rfl

@[simp] theorem Checked.unbounded_reported (x : Checked α) :
    x.reported.unbounded = pure x.value := rfl

end Unbounded

/-- Records a defect of a token stream at a position. -/
def report (position : Nat) (fault : TokenFault) : Reported Unit :=
  { value := (), diagnostics := [Diagnostic.atToken position fault] }

/-- Records a defect that belongs to no token. -/
def reportDefect (defect : Defect) : Reported Unit :=
  { value := (), diagnostics := [⟨defect, none⟩] }

end LinearScore
