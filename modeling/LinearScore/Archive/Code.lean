/-!
# Canonical codes over bits

Bits are taken from bytes with the lowest bit first.  A canonical code is fixed by the lengths of
its code words: shorter words come first, words of one length follow the order of their symbols.

## Main definitions

* `bitsOf`, `takeBits`
* `Code.ofLengths?`, `Code.next`: a code, and the symbol at the front of some bits
-/

namespace LinearScore.Archive

/-- Why decompression stops before its end. -/
inductive Halt where
  /-- The input ends too early. -/
  | truncated
  /-- The input breaks the format. -/
  | corrupt
  deriving DecidableEq

/-- The bits of one byte, the lowest first. -/
def byteBits (b : UInt8) : List Bool := (List.range 8).map fun i => b.toNat.testBit i

/-- The bits of some bytes. -/
def bitsOf (bytes : List UInt8) : List Bool := bytes.flatMap byteBits

/-- The number that the bits denote, the lowest first. -/
def bitsValue (bits : List Bool) : Nat := bits.foldr (fun b n => b.toNat + 2 * n) 0

/-- The number that the next `n` bits denote, and the bits behind them. -/
def takeBits (n : Nat) (bits : List Bool) : Except Halt (Nat × List Bool) :=
  let taken := bits.take n
  if taken.length < n then .error .truncated else .ok (bitsValue taken, bits.drop n)

/-- A canonical code. -/
structure Code where
  /-- The number of code words of each length, from one on. -/
  counts : List Nat
  /-- The symbols in the order of their code words. -/
  symbols : List Nat

namespace Code

/-- The longest code word. -/
def lengthLimit : Nat := 15

/-- The code with given lengths of code words, by symbol; a length of zero means no word. -/
def ofLengths (lengths : List Nat) : Code where
  counts := (List.range' 1 lengthLimit).map fun n => lengths.count n
  symbols := (List.range' 1 lengthLimit).flatMap fun n =>
    (lengths.zipIdx.filter (·.1 = n)).map (·.2)

/-- How many words of the greatest length the code leaves unused; negative if it is too full. -/
def slack (c : Code) : Int := c.counts.foldl (fun (left : Int) (n : Nat) => 2 * left - n) 1

/-- The code has no word at all, or a single one of one bit. -/
def isSparse (c : Code) : Bool :=
  c.symbols.isEmpty || (c.symbols.length = 1 && c.counts.head? = some 1)

/-- The code with given lengths, if no word is left unused.  Where `sparse`, a sparse code is also
accepted. -/
def ofLengths? (sparse : Bool) (lengths : List Nat) : Except Halt Code :=
  let c := ofLengths lengths
  if c.slack = 0 || (sparse && c.isSparse) then .ok c else .error .corrupt

/-- The symbol whose code word starts the bits.  `word` is the part of it read so far, `first` the
first code word of the length reached, and `index` the place of its symbol. -/
def nextFrom (symbols : List Nat) (word first index : Nat) :
    List Nat → List Bool → Except Halt (Nat × List Bool)
  | [], _ => .error .corrupt
  | _ :: _, [] => .error .truncated
  | count :: counts, bit :: bits =>
    let word := 2 * word + bit.toNat
    if word - first < count && first ≤ word then
      match symbols[index + (word - first)]? with
      | some symbol => .ok (symbol, bits)
      | none => .error .corrupt
    else nextFrom symbols word (2 * (first + count)) (index + count) counts bits

/-- The symbol whose code word starts the bits, and the bits behind it. -/
def next (c : Code) (bits : List Bool) : Except Halt (Nat × List Bool) :=
  nextFrom c.symbols 0 0 0 c.counts bits

end Code

end LinearScore.Archive
