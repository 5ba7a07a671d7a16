/-!
# Records

An archive is made of records.  A record begins with a mark of four bytes, and its numbers stand in
little-endian order at fixed places.

## Main definitions

* `slice`, `littleEndian`, `field`: parts of a record
* `isRecord`: a record begins here
* `placesOf`: where a mark stands
-/

namespace LinearScore.Archive

/-- The bytes from a place on, `n` of them at most. -/
def slice (bytes : List UInt8) (start n : Nat) : List UInt8 := (bytes.drop start).take n

/-- A number in little-endian order. -/
def littleEndian (bytes : List UInt8) : Nat := bytes.foldr (fun b n => b.toNat + 256 * n) 0

/-- The number in `n` bytes at a place. -/
def field (bytes : List UInt8) (start n : Nat) : Nat := littleEndian (slice bytes start n)

/-- There are at least `n` bytes. -/
def hasBytes (n : Nat) (bytes : List UInt8) : Bool := (bytes.take n).length = n

/-- The mark of the record at the end of an archive. -/
def endMark : List UInt8 := [0x50, 0x4B, 0x05, 0x06]

/-- The mark of the end record with wide numbers. -/
def wideMark : List UInt8 := [0x50, 0x4B, 0x06, 0x06]

/-- The mark of the record that tells where the wide end record is. -/
def locatorMark : List UInt8 := [0x50, 0x4B, 0x06, 0x07]

/-- The mark of a record in the directory. -/
def directoryMark : List UInt8 := [0x50, 0x4B, 0x01, 0x02]

/-- The mark of the header in front of data. -/
def headerMark : List UInt8 := [0x50, 0x4B, 0x03, 0x04]

/-- The bytes begin with a mark, and there are at least `n` of them. -/
def isRecord (mark : List UInt8) (n : Nat) (bytes : List UInt8) : Bool :=
  mark.isPrefixOf bytes && hasBytes n bytes

/-- The places where a mark stands from `index` on, the last first, and then those found before. -/
def placesFrom (mark : List UInt8) (index : Nat) (found : List Nat) : List UInt8 → List Nat
  | [] => found
  | b :: bs =>
    placesFrom mark (index + 1) (if mark.isPrefixOf (b :: bs) then index :: found else found) bs

/-- The places where a mark stands, in order. -/
def placesOf (mark bytes : List UInt8) : List Nat := (placesFrom mark 0 [] bytes).reverse

end LinearScore.Archive
