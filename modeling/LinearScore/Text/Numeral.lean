/-!
# Decimal integers

An integer literal is an optional sign and at least one digit, nothing else: no blank, no
separator.  A literal outside the range that its field allows is refused.

## Main definitions

* `digits?`: the value of a run of digits
* `readNat`, `readInt`: a literal within a range; `readNat` takes no minus sign, not even before a
  zero
-/

namespace LinearScore.Text

/-- The value of a non-empty run of decimal digits. -/
def digits? (cs : List Char) : Option Nat :=
  if !cs.isEmpty && cs.all Char.isDigit then
    some (cs.foldl (fun n c => 10 * n + (c.toNat - '0'.toNat)) 0)
  else none

/-- The value of a literal without a minus sign that is at most `max`. -/
def readNat (max : Nat) (s : String) : Option Nat :=
  let value := match s.toList with
    | '+' :: cs => digits? cs
    | cs => digits? cs
  value.filter (· ≤ max)

/-- The value of a literal between `min` and `max`. -/
def readInt (min max : Int) (s : String) : Option Int :=
  let value := match s.toList with
    | '+' :: cs => (digits? cs).map Int.ofNat
    | '-' :: cs => (digits? cs).map fun n => -(n : Int)
    | cs => (digits? cs).map Int.ofNat
  value.filter fun n => min ≤ n && n ≤ max

/-- The range of a count or number that one byte holds. -/
def readByte (s : String) : Option Nat := readNat 255 s

/-- The range of a count that four bytes hold. -/
def readCount (s : String) : Option Nat := readNat 4294967295 s

/-- The range of a signed number that four bytes hold. -/
def readSigned (s : String) : Option Int := readInt (-2147483648) 2147483647 s

/-- The range of a signed number that eight bytes hold. -/
def readLong (s : String) : Option Int :=
  readInt (-9223372036854775808) 9223372036854775807 s

end LinearScore.Text
