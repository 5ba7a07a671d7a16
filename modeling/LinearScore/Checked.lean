/-!
# Arithmetic with machine integers

Durations are exact fractions, but their numerators and denominators are integers of 64 bits, and
the numbers of pitches, beams and measures have fewer bits still.  Arithmetic neither rounds nor
wraps around: the program stops at the first number that its integers do not hold.

## Main definitions

* `Checked`: the value of a computation, and whether every number on the way to it is held
* `Checked.outcome`: what the program arrives at, if it does not stop
* `Machine.add`, `Machine.subtract`, `Machine.fraction`, `Machine.commonMultiple`: the operations

The value of a computation is that of exact arithmetic, as `value_bind` shows, whether or not the
numbers are held.  So what is proved of exact values holds of the program wherever it does not stop.
-/

namespace LinearScore

/-- The value that exact arithmetic gives, and whether every number on the way is held. -/
@[ext]
structure Checked (α : Type) where
  value : α
  fits : Bool := true

namespace Checked

instance : Monad Checked where
  pure a := ⟨a, true⟩
  bind x f := ⟨(f x.value).value, x.fits && (f x.value).fits⟩

variable {α β : Type}

/-- What the program arrives at: nothing where it stops at a number that is not held. -/
def outcome (x : Checked α) : Option α := if x.fits then some x.value else none

@[simp] theorem value_pure (a : α) : (pure a : Checked α).value = a := rfl

@[simp] theorem fits_pure (a : α) : (pure a : Checked α).fits = true := rfl

@[simp] theorem value_bind (x : Checked α) (f : α → Checked β) :
    (x >>= f).value = (f x.value).value := rfl

@[simp] theorem fits_bind (x : Checked α) (f : α → Checked β) :
    (x >>= f).fits = (x.fits && (f x.value).fits) := rfl

@[simp] theorem value_map (f : α → β) (x : Checked α) : (f <$> x).value = f x.value := rfl

@[simp] theorem fits_map (f : α → β) (x : Checked α) : (f <$> x).fits = x.fits :=
  Bool.and_true _

@[simp] theorem fits_discard (x : Checked α) : (discard x).fits = x.fits := Bool.and_true _

instance : LawfulMonad Checked := LawfulMonad.mk' Checked
  (fun _ => Checked.ext rfl (Bool.and_true _))
  (fun _ _ => Checked.ext rfl (Bool.true_and _))
  (fun _ _ _ => Checked.ext rfl (Bool.and_assoc ..))

@[simp] theorem fits_forM (as : List α) (f : α → Checked PUnit) :
    (forM as f).fits = as.all fun a => (f a).fits := by
  induction as with
  | nil => rfl
  | cons a as ih => rw [List.forM_cons, fits_bind, ih, List.all_cons]

@[simp] theorem value_foldlM (f : β → α → Checked β) (b : β) (as : List α) :
    (as.foldlM f b).value = as.foldl (fun b a => (f b a).value) b := by
  induction as generalizing b with
  | nil => rfl
  | cons a as ih => rw [List.foldlM_cons, value_bind, ih, List.foldl_cons]

theorem outcome_eq_some_iff {x : Checked α} {a : α} :
    x.outcome = some a ↔ x.fits = true ∧ x.value = a := by
  simp [outcome]

theorem outcome_eq_none_iff {x : Checked α} : x.outcome = none ↔ x.fits = false := by
  simp [outcome]

theorem outcome_of_fits {x : Checked α} (h : x.fits = true) : x.outcome = some x.value :=
  outcome_eq_some_iff.mpr ⟨h, rfl⟩

end Checked

namespace Machine

/-- The bound of the signed integers of 64 bits. -/
def limit64 : Nat := 1 <<< 63

/-- The bound of the signed integers of 32 bits. -/
def limit32 : Nat := 1 <<< 31

/-- Signed integers up to a bound hold the number. -/
def holds (limit : Nat) (n : Int) : Bool := -(limit : Int) ≤ n && n < limit

/-- A whole number up to a bound. -/
def integer (limit : Nat) (n : Int) : Checked Int := ⟨n, holds limit n⟩

/-- The numerator and the denominator of a fraction are held. -/
def holdsFraction (q : Rat) : Bool := holds limit64 q.num && holds limit64 q.den

/-- A number of eight bits without a sign. -/
def byte (n : Nat) : Checked Nat := ⟨n, n < 256⟩

/-- A product or quotient.  Factors are cancelled first, so no number on the way is larger than
those of the result in lowest terms. -/
def fraction (q : Rat) : Checked Rat := ⟨q, holdsFraction q⟩

/-- Some products or quotients, one after the other. -/
def fractions (qs : List Rat) : Checked Unit := ⟨(), qs.all holdsFraction⟩

/-- The least common multiple of two denominators. -/
def commonMultiple (m n : Nat) : Checked Nat := ⟨m.lcm n, holds limit64 (m.lcm n)⟩

/-- The numerator of a fraction over a multiple of its denominator. -/
def numeratorOver (common : Nat) (q : Rat) : Int := q.num * (common / q.den : Nat)

/-- A sum or difference: both fractions are brought to their common denominator, their numerators
are added or subtracted there, and the factors of the result are cancelled last. -/
def combine (whole : Int → Int → Int) (p q : Rat) (result : Rat) : Checked Rat := do
  let common ← commonMultiple p.den q.den
  let m ← integer limit64 (numeratorOver common p)
  let n ← integer limit64 (numeratorOver common q)
  let _ ← integer limit64 (whole m n)
  return result

/-- A sum. -/
def add (p q : Rat) : Checked Rat := combine (· + ·) p q (p + q)

/-- A difference. -/
def subtract (p q : Rat) : Checked Rat := combine (· - ·) p q (p - q)

@[simp] theorem value_integer (limit : Nat) (n : Int) : (integer limit n).value = n := by
  rw [integer]

@[simp] theorem value_byte (n : Nat) : (byte n).value = n := by rw [byte]

@[simp] theorem value_fraction (q : Rat) : (fraction q).value = q := by rw [fraction]

@[simp] theorem value_commonMultiple (m n : Nat) : (commonMultiple m n).value = m.lcm n := by
  rw [commonMultiple]

@[simp] theorem value_combine (whole : Int → Int → Int) (p q result : Rat) :
    (combine whole p q result).value = result := by
  simp only [combine, Checked.value_bind, Checked.value_pure]

@[simp] theorem value_add (p q : Rat) : (add p q).value = p + q := by
  rw [add, value_combine]

@[simp] theorem value_subtract (p q : Rat) : (subtract p q).value = p - q := by
  rw [subtract, value_combine]

end Machine

end LinearScore
