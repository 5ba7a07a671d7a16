import Mathlib.Data.List.TakeDrop
import Mathlib.Data.List.TakeWhile
import Mathlib.Data.Nat.Digits.Defs
import Mathlib.Data.Rat.Lemmas
import LinearScore.Text.Blank
import LinearScore.Text.Ratio
import LinearScore.Text.Whole
import LinearScore.Proofs.Spelling

/-!
# Numbers as texts

Numbers are read as they were written: integers and fractions exactly, and small integers also where
a decimal number in double precision is expected.

## Main definitions

* `FitsByte`, `FitsCount`, `FitsSigned`, `FitsLong`: the ranges that fields have
* `FitsRatio`: a fraction of numbers in the range of eight bytes

The main statements are `readRatio_ratio` and `readWhole_toString`.
-/

namespace LinearScore.Text

/-! ## Trimmed texts -/

/-- Nothing is trimmed from a text without blanks at its ends. -/
theorem trim_eq_self {s : String} (first : ∀ c ∈ s.toList.head?, isBlank c = false)
    (last : ∀ c ∈ s.toList.getLast?, isBlank c = false) : trim s = s := by
  have left (cs : List Char) (h : ∀ c ∈ cs.head?, isBlank c = false) : trimLeft cs = cs := by
    cases cs with
    | nil => rfl
    | cons c cs => exact List.dropWhile_cons_of_neg (by simp [h c rfl])
  rw [trim, left _ first, trimRight, left _ (by rwa [List.head?_reverse]), List.reverse_reverse,
    String.ofList_toList]

/-- A character of a written number. -/
def isNumeral (c : Char) : Bool := c.isDigit || c = '-' || c = '/'

/-- The visible characters of ASCII are no blanks. -/
theorem not_isBlank_of_visible {c : Char} (low : 33 ≤ c.val.toNat) (high : c.val.toNat ≤ 126) :
    isBlank c = false := by
  rw [Bool.eq_false_iff]
  intro blank
  simp only [isBlank, Bool.or_eq_true, Bool.and_eq_true, decide_eq_true_eq, beq_iff_eq,
    UInt32.le_iff_toNat_le, ← UInt32.toNat_inj, UInt32.reduceToNat] at blank
  omega

/-- The characters of numbers are no blanks. -/
theorem not_isBlank_of_isNumeral {c : Char} (h : isNumeral c = true) : isBlank c = false := by
  simp only [isNumeral, Bool.or_eq_true, decide_eq_true_eq] at h
  rcases h with (digit | rfl) | rfl
  · obtain ⟨least, greatest⟩ := Char.isDigit_iff_toNat.mp digit
    exact not_isBlank_of_visible (Nat.le_trans (by decide) least)
      (Nat.le_trans greatest (by decide))
  · decide
  · decide

theorem trim_of_isNumeral {s : String} (h : ∀ c ∈ s.toList, isNumeral c = true) : trim s = s :=
  trim_eq_self (fun c hc => not_isBlank_of_isNumeral (h c (List.mem_of_mem_head? hc)))
    fun c hc => not_isBlank_of_isNumeral (h c (List.mem_of_mem_getLast? hc))

theorem isNumeral_of_isDigit {c : Char} (h : c.isDigit = true) : isNumeral c = true := by
  rw [isNumeral, h]
  rfl

theorem isDigit_of_mem_toString {n : Nat} {c : Char} (h : c ∈ (toString n).toList) :
    c.isDigit = true := by
  rw [Nat.toString_eq_repr, Nat.toList_repr] at h
  exact Nat.isDigit_of_mem_toDigits (by decide) (by decide) h

/-- The text of an integer is that of its size, behind a sign if it is negative. -/
theorem toList_toString_int (n : Int) :
    (toString n).toList =
      (if n < 0 then ['-'] else []) ++ (toString n.natAbs).toList := by
  cases n with
  | ofNat n => rfl
  | negSucc n =>
    rw [if_pos (Int.negSucc_lt_zero n),
      show toString (Int.negSucc n) = "-" ++ (n + 1).repr from rfl, String.toList_append]
    rfl

theorem isNumeral_of_mem_toString {n : Int} {c : Char} (h : c ∈ (toString n).toList) :
    isNumeral c = true := by
  rw [toList_toString_int, List.mem_append] at h
  rcases h with sign | digits
  · split at sign
    · obtain rfl := List.mem_singleton.mp sign
      rfl
    · cases sign
  · exact isNumeral_of_isDigit (isDigit_of_mem_toString digits)

/-! ## Ranges -/

/-- The range of a number in one byte. -/
def FitsByte (n : Nat) : Prop := n ≤ 255

/-- The range of a number in four bytes. -/
def FitsCount (n : Nat) : Prop := n ≤ 4294967295

/-- The range of a signed number in four bytes. -/
def FitsSigned (n : Int) : Prop := -2147483648 ≤ n ∧ n ≤ 2147483647

/-- The range of a signed number in eight bytes. -/
def FitsLong (n : Int) : Prop := -9223372036854775808 ≤ n ∧ n ≤ 9223372036854775807

instance : DecidablePred FitsByte := fun n => inferInstanceAs (Decidable (n ≤ 255))

instance : DecidablePred FitsCount := fun n => inferInstanceAs (Decidable (n ≤ 4294967295))

instance : DecidablePred FitsSigned := fun _ => inferInstanceAs (Decidable (_ ∧ _))

instance : DecidablePred FitsLong := fun _ => inferInstanceAs (Decidable (_ ∧ _))

theorem readByte_toString {n : Nat} (h : FitsByte n) : readByte (toString n) = some n :=
  readNat_toString h

theorem readCount_toString {n : Nat} (h : FitsCount n) : readCount (toString n) = some n :=
  readNat_toString h

theorem readSigned_toString {n : Int} (h : FitsSigned n) : readSigned (toString n) = some n :=
  readInt_toString h

theorem readLong_toString {n : Int} (h : FitsLong n) : readLong (toString n) = some n :=
  readInt_toString h

/-! ## Fractions -/

/-- A number holds no bar. -/
theorem ne_bar_of_mem_toString {n : Int} {c : Char} (h : c ∈ (toString n).toList) : c ≠ '/' := by
  rw [toList_toString_int, List.mem_append] at h
  rcases h with sign | digits
  · split at sign
    · obtain rfl := List.mem_singleton.mp sign
      decide
    · cases sign
  · rintro rfl
    exact absurd (isDigit_of_mem_toString digits) (by decide)

theorem span_bar {cs : List Char} (h : ∀ c ∈ cs, c ≠ '/') (rest : List Char) :
    (cs ++ '/' :: rest).span (· != '/') = (cs, '/' :: rest) ∧ cs.span (· != '/') = (cs, []) := by
  have inside : ∀ c ∈ cs, (c != '/') = true := by simpa using h
  constructor
  · rw [List.span_eq_takeWhile_dropWhile, List.takeWhile_append_of_pos inside,
      List.dropWhile_append_of_pos inside]
    simp
  · rw [List.span_eq_takeWhile_dropWhile, List.takeWhile_eq_self_iff.mpr inside,
      List.dropWhile_eq_nil_iff.mpr inside]

/-- The numerator and the denominator of a fraction in lowest terms have eight bytes each. -/
def FitsRatio (q : Rat) : Prop := FitsLong q.num ∧ FitsLong q.den

instance : DecidablePred FitsRatio := fun _ => inferInstanceAs (Decidable (_ ∧ _))

/-- Reading a written fraction gives the fraction. -/
theorem readRatio_ratio {q : Rat} (h : FitsRatio q) : readRatio (ratio q) = some q := by
  have num : readLong (toString q.num) = some q.num := readLong_toString h.1
  obtain ⟨cut, whole⟩ := span_bar (fun c hc => ne_bar_of_mem_toString (n := q.num) hc)
    (toString q.den).toList
  unfold ratio
  split
  · rename_i integral
    rw [readRatio, whole]
    dsimp only
    rw [num]
    exact congrArg some (Rat.den_eq_one_iff q |>.mp integral)
  · have den : readLong (toString (q.den : Int)) = some (q.den : Int) := readLong_toString h.2
    rw [show toString (q.den : Int) = toString q.den from rfl] at den
    have text : (toString q.num ++ "/" ++ toString q.den).toList =
        (toString q.num).toList ++ '/' :: (toString q.den).toList := by
      rw [String.toList_append, String.toList_append, List.append_assoc]
      rfl
    have positive : ¬ (q.den : Int) = 0 := by
      exact_mod_cast q.den_nz
    rw [readRatio, text, cut]
    dsimp only
    rw [String.ofList_toList, String.ofList_toList, num, den]
    simp only [Option.bind_eq_bind, Option.bind_some, if_neg positive]
    exact congrArg some (Rat.num_div_den q)

theorem isNumeral_of_mem_ratio {q : Rat} {c : Char} (h : c ∈ (ratio q).toList) :
    isNumeral c = true := by
  unfold ratio at h
  split at h
  · exact isNumeral_of_mem_toString h
  · rw [String.toList_append, String.toList_append, List.mem_append, List.mem_append] at h
    rcases h with (num | bar) | den
    · exact isNumeral_of_mem_toString num
    · obtain rfl : c = '/' := by simpa using bar
      rfl
    · exact isNumeral_of_isDigit (isDigit_of_mem_toString den)

/-! ## Double precision -/

theorem divideToEven_one (n : Nat) : divideToEven n 1 = n := by
  simp [divideToEven, Nat.mod_one]

/-- Integers of up to four bytes are exact in double precision. -/
theorem nearestDouble_one {n : Nat} (positive : n ≠ 0) (small : n < 2 ^ 32) :
    nearestDouble n 1 = (n * 2 ^ (52 - n.log2), (n.log2 : Int) - 52) := by
  have bits : n.log2 < 32 := (Nat.log2_lt positive).mpr small
  have least : 2 ^ n.log2 ≤ n := Nat.log2_self_le positive
  have size : (n.log2 : Int) - Nat.log2 1 = n.log2 := by
    rw [show Nat.log2 1 = 0 by decide]
    omega
  have wide : max ((n.log2 : Int) - 53) (-1074) = (n.log2 : Int) - 53 := by omega
  have next : (n.log2 : Int) - 53 + 1 = (n.log2 : Int) - 52 := by omega
  have up53 : (-((n.log2 : Int) - 53)).toNat = 53 - n.log2 := by omega
  have up52 : (-((n.log2 : Int) - 52)).toNat = 52 - n.log2 := by omega
  have down53 : ((n.log2 : Int) - 53).toNat = 0 := by omega
  have down52 : ((n.log2 : Int) - 52).toNat = 0 := by omega
  -- with 53 bits behind the first one the number would be too long
  have long : ¬ n * Nat.pow 2 (53 - n.log2) < Nat.pow 2 53 * (1 * Nat.pow 2 0) := by
    have whole : 2 ^ 53 = 2 ^ n.log2 * 2 ^ (53 - n.log2) := by
      rw [← Nat.pow_add]
      congr 1
      omega
    have := Nat.mul_le_mul_right (2 ^ (53 - n.log2)) least
    simp only [Nat.pow_eq] at *
    omega
  unfold nearestDouble
  simp only [size, wide, up53, down53, next, decide_eq_true_eq, if_neg long, up52, down52]
  rw [show 1 * Nat.pow 2 0 = 1 from rfl, divideToEven_one]
  rfl

/-- A number shifted up is shifted back. -/
theorem wholeOfBinary_shifted (n : Nat) {k : Nat} (positive : k ≠ 0) :
    wholeOfBinary (n * 2 ^ k) (-(k : Int)) = some n := by
  have shift : (-(-(k : Int))).toNat = k := by omega
  rw [wholeOfBinary, if_neg (by omega), shift, Nat.pow_eq, Nat.mul_mod_left, if_pos rfl,
    Nat.mul_div_left _ (Nat.two_pow_pos k)]

theorem whole_of_small {n : Nat} (negative : Bool) (small : n < 2 ^ 32) :
    (Decimal.mk negative n 0).whole = some n := by
  have length : (Nat.repr n).length ≤ 10 := Nat.repr_length n 10 (by decide) (by omega)
  unfold Decimal.whole
  dsimp only
  by_cases zero : n = 0
  · simp [zero]
  · have bits : n.log2 < 32 := (Nat.log2_lt zero).mpr small
    have finite (k : Nat) (enough : 32 ≤ k) : (some n).filter (· < Nat.pow 2 k) = some n := by
      have bound : n < Nat.pow 2 k :=
        Nat.lt_of_lt_of_le small (Nat.pow_le_pow_right (by decide) enough)
      rw [Option.filter_some, if_pos (decide_eq_true bound)]
    have exponent : (n.log2 : Int) - 52 = -((52 - n.log2 : Nat) : Int) := by omega
    have double := nearestDouble_one zero small
    rw [exponent] at double
    rw [if_neg (by simp; omega), if_neg (by omega)]
    simp only [Int.toNat_zero, Int.neg_zero]
    rw [show n * Nat.pow 10 0 = n from Nat.mul_one n, show Nat.pow 10 0 = 1 from rfl, double]
    dsimp only
    rw [wholeOfBinary_shifted n (by omega)]
    apply finite
    decide

theorem readMagnitude_toDigits (negative : Bool) (n : Nat) :
    readMagnitude negative (Nat.toDigits 10 n) = some ⟨negative, n, 0⟩ := by
  have digits : ∀ c ∈ Nat.toDigits 10 n, c.isDigit = true := fun c hc =>
    Nat.isDigit_of_mem_toDigits (by decide) (by decide) hc
  unfold readMagnitude
  rw [List.takeWhile_eq_self_iff.mpr digits, List.dropWhile_eq_nil_iff.mpr digits]
  dsimp only
  rw [List.append_nil, digits?_toDigits]
  rfl

/-- The decimal number that a written integer denotes. -/
theorem readDecimal_toString (n : Int) :
    readDecimal (toString n) = some ⟨n < 0, n.natAbs, 0⟩ := by
  unfold readDecimal
  rw [toList_toString_int, Nat.toString_eq_repr, Nat.toList_repr]
  by_cases negative : n < 0
  · rw [if_pos negative, decide_eq_true negative]
    exact readMagnitude_toDigits true n.natAbs
  · rw [if_neg negative, decide_eq_false negative, List.nil_append]
    obtain ⟨c, cs, eq, digit⟩ := toDigits_eq_cons n.natAbs
    have value := readMagnitude_toDigits false n.natAbs
    rw [eq] at value ⊢
    split
    · rename_i heq
      obtain rfl := (List.cons.inj heq).1
      cases digit
    · rename_i heq
      obtain rfl := (List.cons.inj heq).1
      cases digit
    · exact value

/-- Reading a written integer of up to four bytes as a whole decimal number gives the integer. -/
theorem readWhole_toString {n : Int} (h : FitsSigned n) : readWhole (toString n) = some n := by
  obtain ⟨least, greatest⟩ := h
  have small : n.natAbs < 2 ^ 32 := by omega
  rw [readWhole, readDecimal_toString]
  simp only [Option.bind_eq_bind, Option.bind_some, whole_of_small _ small, decide_eq_true_eq]
  have value : (if n < 0 then -(n.natAbs : Int) else (n.natAbs : Int)) = n := by
    split
    · omega
    · omega
  rw [value]
  show some (max _ _) = _
  rw [min_eq_right greatest, max_eq_right least]

end LinearScore.Text
