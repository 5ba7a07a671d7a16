/-!
# The cyclic redundancy check

## Main definitions

* `checksum`: the 32-bit check of some bytes, with the reversed polynomial `0xEDB88320`
-/

namespace LinearScore.Archive

/-- The remainder after one more bit. -/
def checkBit (r : UInt32) : UInt32 :=
  if r &&& 1 = 1 then (r >>> 1) ^^^ 0xEDB88320 else r >>> 1

/-- The remainder after `n` more bits. -/
def checkBits : Nat → UInt32 → UInt32
  | 0, r => r
  | n + 1, r => checkBits n (checkBit r)

/-- The check of some bytes. -/
def checksum (bytes : List UInt8) : UInt32 :=
  (bytes.foldl (fun r b => checkBits 8 (r ^^^ b.toUInt32)) 0xFFFFFFFF) ^^^ 0xFFFFFFFF

end LinearScore.Archive
