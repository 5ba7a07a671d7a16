import LinearScore.Text.Numeral

/-!
# Whole numbers in decimal notation

A decimal number may have a point and an exponent: `-1`, `1.0`, `.5e1`.  It is read as the nearest
double-precision number, ties going to the even significand, and is accepted when that number is
whole.  So `1e-400` is accepted as zero, `1e400`, an infinity, is not, and a fraction that only
differs from a whole number beyond double precision counts as that whole number.

## Main definitions

* `Decimal`, `readDecimal`: the notation
* `nearestDouble`: rounding to 53 significant bits, with the least exponent `-1074`
* `readWhole`: the whole number a text denotes
-/

namespace LinearScore.Text

/-- The number `± significand · 10 ^ exponent`. -/
structure Decimal where
  negative : Bool
  significand : Nat
  exponent : Int

/-- The exponent part that may follow the digits: nothing, or `e`, a sign if wanted, and digits. -/
def readExponent : List Char → Option Int
  | [] => some 0
  | c :: cs =>
    if c = 'e' || c = 'E' then
      match cs with
      | '+' :: ds => (digits? ds).map Int.ofNat
      | '-' :: ds => (digits? ds).map fun n => -(n : Int)
      | ds => (digits? ds).map Int.ofNat
    else none

/-- A number without its sign: digits around at most one point, at least one digit in all, and an
exponent if wanted. -/
def readMagnitude (negative : Bool) (cs : List Char) : Option Decimal := do
  let whole := cs.takeWhile Char.isDigit
  let rest := cs.dropWhile Char.isDigit
  let (fraction, tail) := match rest with
    | '.' :: r => (r.takeWhile Char.isDigit, r.dropWhile Char.isDigit)
    | r => ([], r)
  let significand ← digits? (whole ++ fraction)
  let exponent ← readExponent tail
  return ⟨negative, significand, exponent - fraction.length⟩

/-- The decimal number that a text denotes.  Infinities and the like are no numbers. -/
def readDecimal (s : String) : Option Decimal :=
  match s.toList with
  | '+' :: cs => readMagnitude false cs
  | '-' :: cs => readMagnitude true cs
  | cs => readMagnitude false cs

/-- `n / d` rounded to the nearest integer, a tie to the even neighbour. -/
def divideToEven (n d : Nat) : Nat :=
  let q := n / d
  let twice := 2 * (n % d)
  if twice < d then q else if d < twice then q + 1 else q + q % 2

/-- The significand and exponent of the double-precision number nearest to `n / d`: 53 bits, and no
exponent below `-1074`. -/
def nearestDouble (n d : Nat) : Nat × Int :=
  let size : Int := (Nat.log2 n : Int) - Nat.log2 d
  let scaled (e : Int) : Nat × Nat := (n * Nat.pow 2 (-e).toNat, d * Nat.pow 2 e.toNat)
  let wide := max (size - 53) (-1074)
  let fits (e : Int) : Bool := (scaled e).1 < Nat.pow 2 53 * (scaled e).2
  let e := if fits wide then wide else wide + 1
  (divideToEven (scaled e).1 (scaled e).2, e)

/-- The whole number `m · 2 ^ e`, if it is whole. -/
def wholeOfBinary (m : Nat) (e : Int) : Option Nat :=
  if 0 ≤ e then some (m * Nat.pow 2 e.toNat)
  else if m % Nat.pow 2 (-e).toNat = 0 then some (m / Nat.pow 2 (-e).toNat) else none

/-- The magnitude of a decimal number after rounding, if it is finite and whole.  A number with
more than 400 digits before its point is infinite, one with 400 zeros behind the point is zero. -/
def Decimal.whole (x : Decimal) : Option Nat :=
  let size : Int := (Nat.repr x.significand).length + x.exponent
  if x.significand = 0 || size < -400 then some 0
  else if 400 < size then none
  else
    let (m, e) := nearestDouble (x.significand * Nat.pow 10 x.exponent.toNat)
      (Nat.pow 10 (-x.exponent).toNat)
    (wholeOfBinary m e).filter (· < Nat.pow 2 1024)

/-- The whole number that a text denotes, clamped to the range of a four-byte signed number. -/
def readWhole (s : String) : Option Int := do
  let x ← readDecimal s
  let n ← x.whole
  let value : Int := if x.negative then -(n : Int) else n
  return max (-2147483648) (min 2147483647 value)

end LinearScore.Text
