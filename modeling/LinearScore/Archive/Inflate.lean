import LinearScore.Archive.Code

/-!
# Decompression

Compressed data are blocks: stored bytes, or symbols in a fixed code or in a code of the block's
own.  A symbol is a byte, the end of the block, or the length of a copy from the output before,
with the distance in a second code.

## Main definitions

* `inflate`: the output of compressed data, or why there is none
-/

namespace LinearScore.Archive

/-- The base and the number of further bits of each symbol for a length. -/
def lengthTable : List (Nat × Nat) :=
  [(3, 0), (4, 0), (5, 0), (6, 0), (7, 0), (8, 0), (9, 0), (10, 0), (11, 1), (13, 1), (15, 1),
   (17, 1), (19, 2), (23, 2), (27, 2), (31, 2), (35, 3), (43, 3), (51, 3), (59, 3), (67, 4),
   (83, 4), (99, 4), (115, 4), (131, 5), (163, 5), (195, 5), (227, 5), (258, 0)]

/-- The base and the number of further bits of each symbol for a distance. -/
def distanceTable : List (Nat × Nat) :=
  [(1, 0), (2, 0), (3, 0), (4, 0), (5, 1), (7, 1), (9, 2), (13, 2), (17, 3), (25, 3), (33, 4),
   (49, 4), (65, 5), (97, 5), (129, 6), (193, 6), (257, 7), (385, 7), (513, 8), (769, 8),
   (1025, 9), (1537, 9), (2049, 10), (3073, 10), (4097, 11), (6145, 11), (8193, 12), (12289, 12),
   (16385, 13), (24577, 13)]

/-- The order in which the lengths for the code of lengths are stored. -/
def storedOrder : List Nat := [16, 17, 18, 0, 8, 7, 9, 6, 10, 5, 11, 4, 12, 3, 13, 2, 14, 1, 15]

/-- The value of a symbol with its further bits. -/
def takeValue (table : List (Nat × Nat)) (symbol : Nat) (bits : List Bool) :
    Except Halt (Nat × List Bool) := do
  match table[symbol]? with
  | some (base, extra) =>
    let (n, bits) ← takeBits extra bits
    return (base + n, bits)
  | none => .error .corrupt

/-- The byte that stands `distance` before the end of the output.  In front of the output stand
zeros. -/
def byteBefore (out : Array UInt8) (distance : Nat) : UInt8 :=
  if distance ≤ out.size then out.getD (out.size - distance) 0 else 0

/-- The output with a copy of what stands `distance` before its end.  The copy may overlap
itself. -/
def copyBack (out : Array UInt8) (distance : Nat) : Nat → Array UInt8
  | 0 => out
  | n + 1 => copyBack (out.push (byteBefore out distance)) distance n

/-- What a copy stands for: its length and its distance. -/
def takeCopy (distances : Code) (symbol : Nat) (bits : List Bool) :
    Except Halt (Nat × Nat × List Bool) := do
  let (length, bits) ← takeValue lengthTable (symbol - 257) bits
  let (symbol, bits) ← distances.next bits
  let (distance, bits) ← takeValue distanceTable symbol bits
  return (length, distance, bits)

/-- The output with the symbols of a block up to its end, and the bits behind.  Each symbol takes at
least one bit, which bounds the fuel. -/
def inflateSymbols (literals distances : Code) :
    Nat → Array UInt8 → List Bool → Except Halt (Array UInt8 × List Bool)
  | 0, _, _ => .error .truncated
  | fuel + 1, out, bits => do
    let (symbol, bits) ← literals.next bits
    if symbol < 256 then inflateSymbols literals distances fuel (out.push symbol.toUInt8) bits
    else if symbol = 256 then return (out, bits)
    else
      let (length, distance, bits) ← takeCopy distances symbol bits
      inflateSymbols literals distances fuel (copyBack out distance length) bits

/-- The lengths of a block's own codes.  Three symbols repeat a length: the one before, or zero. -/
def takeLengths (code : Code) (total : Nat) :
    Nat → List Nat → List Bool → Except Halt (List Nat × List Bool)
  | 0, _, _ => .error .truncated
  | fuel + 1, lengths, bits => do
    if total ≤ lengths.length then
      if total = lengths.length then return (lengths, bits)
      throw .corrupt
    let (symbol, bits) ← code.next bits
    let (repeated, base, extra) ← match symbol, lengths.getLast? with
      | 16, none => .error .corrupt
      | 16, some n => .ok (n, 3, 2)
      | 17, _ => .ok (0, 3, 3)
      | 18, _ => .ok (0, 11, 7)
      | n, _ => .ok (n, 1, 0)
    let (n, bits) ← takeBits extra bits
    takeLengths code total fuel (lengths ++ List.replicate (base + n) repeated) bits

/-- The three-bit lengths for the code of lengths. -/
def takeStored : Nat → List Bool → Except Halt (List Nat × List Bool)
  | 0, bits => .ok ([], bits)
  | n + 1, bits => do
    let (length, bits) ← takeBits 3 bits
    let (lengths, bits) ← takeStored n bits
    return (length :: lengths, bits)

/-- The most symbols that a block's own code for bytes and lengths may have. -/
def literalLimit : Nat := 286

/-- The most symbols that a block's own code for distances may have. -/
def distanceLimit : Nat := 30

/-- The codes that a block brings along. -/
def takeCodes (bits : List Bool) : Except Halt (Code × Code × List Bool) := do
  let (literals, bits) ← takeBits 5 bits
  let (distances, bits) ← takeBits 5 bits
  let (stored, bits) ← takeBits 4 bits
  let literals := literals + 257
  let distances := distances + 1
  if literalLimit < literals || distanceLimit < distances then throw .corrupt
  let (lengths, bits) ← takeStored (stored + 4) bits
  let ordered := (List.range 19).map fun symbol =>
    ((storedOrder.zip lengths).lookup symbol).getD 0
  let code ← Code.ofLengths? false ordered
  let total := literals + distances
  let (lengths, bits) ← takeLengths code total (total + 1) [] bits
  let literalCode ← Code.ofLengths? true (lengths.take literals)
  let distanceCode ← Code.ofLengths? true (lengths.drop literals)
  return (literalCode, distanceCode, bits)

/-- The fixed code of bytes and lengths. -/
def fixedLiterals : Code :=
  .ofLengths <|
    List.replicate 144 8 ++ List.replicate 112 9 ++ List.replicate 24 7 ++ List.replicate 8 8

/-- The fixed code of distances. -/
def fixedDistances : Code := .ofLengths (List.replicate 32 5)

/-- The output with `n` more bytes as they are, and the bits behind. -/
def takeBytes (out : Array UInt8) : Nat → List Bool → Except Halt (Array UInt8 × List Bool)
  | 0, bits => .ok (out, bits)
  | n + 1, bits => do
    let (b, bits) ← takeBits 8 bits
    takeBytes (out.push b.toUInt8) n bits

/-- The output with the bytes of a stored block, and the bits behind. -/
def inflateStored (out : Array UInt8) (bits : List Bool) :
    Except Halt (Array UInt8 × List Bool) := do
  let bits := bits.drop (bits.length % 8)
  let (length, bits) ← takeBits 16 bits
  let (check, bits) ← takeBits 16 bits
  if length + check ≠ 0xFFFF then throw .corrupt
  takeBytes out length bits

/-- The output with one block behind its three bits of header, and the bits behind. -/
def inflateBlock (kind : Nat) (out : Array UInt8) (bits : List Bool) :
    Except Halt (Array UInt8 × List Bool) := do
  match kind with
  | 0 => inflateStored out bits
  | 1 => inflateSymbols fixedLiterals fixedDistances (bits.length + 1) out bits
  | 2 =>
    let (literals, distances, bits) ← takeCodes bits
    inflateSymbols literals distances (bits.length + 1) out bits
  | _ => throw .corrupt

/-- The output of the blocks up to the last one.  Each takes at least three bits, which bounds the
fuel. -/
def inflateBlocks : Nat → Array UInt8 → List Bool → Except Halt (Array UInt8)
  | 0, _, _ => .error .truncated
  | fuel + 1, out, bits => do
    let (last, bits) ← takeBits 1 bits
    let (kind, bits) ← takeBits 2 bits
    let (out, bits) ← inflateBlock kind out bits
    if last = 1 then return out else inflateBlocks fuel out bits

/-- The output of compressed data, up to the end of the last block.  No data at all have no
output. -/
def inflate (bytes : List UInt8) : Except Halt (List UInt8) :=
  if bytes.isEmpty then .ok []
  else
    let bits := bitsOf bytes
    (inflateBlocks (bits.length + 1) #[] bits).map (·.toList)

end LinearScore.Archive
