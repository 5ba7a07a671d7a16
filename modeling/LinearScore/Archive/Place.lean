import LinearScore.Archive.Record

/-!
# Where the directory is

An archive ends with a record that says where its directory is.  Data may stand in front of the
archive; all places that the archive tells then count from where it begins, and where that is
follows from where the directory is found.  Numbers that are too large for the end record stand in
a wide one in front of it, and a locator between the two says where the wide one is.

## Main definitions

* `Place`: where a directory is
* `EndRecord`, `EndRecord.directory`: the directory that an end record tells of
* `Locator`, `Locator.directory`: the directory that a wide end record tells of
-/

namespace LinearScore.Archive

/-- Where a directory is. -/
structure Place where
  /-- Where the archive begins. -/
  base : Nat
  /-- Where the directory begins. -/
  start : Nat
  /-- The number of entries. -/
  count : Nat
  deriving DecidableEq

/-- A locator. -/
structure Locator where
  /-- Where the locator itself is. -/
  place : Nat
  /-- The disk with the directory. -/
  disk : Nat
  /-- Where the wide end record is, counted from where the archive begins. -/
  offset : Nat
  /-- The number of disks. -/
  disks : Nat

/-- The locator right in front of the end record. -/
def locator? (bytes : List UInt8) (place : Nat) : Option Locator :=
  let record := bytes.drop (place - 20)
  if 20 ≤ place && isRecord locatorMark 20 record then
    some
      { place := place - 20
        disk := field record 4 4
        offset := field record 8 8
        disks := field record 16 4 }
  else none

/-- The wide record at a place is the one that the locator means: it ends where the locator begins,
tells the same disk, and leaves room for the directory in front of it. -/
def Locator.means (l : Locator) (bytes : List UInt8) (place : Nat) : Bool :=
  let record := bytes.drop place
  let size := field record 4 8
  44 ≤ size && place + size + 12 = l.place && field record 20 4 = l.disk &&
    46 * field record 32 8 + field record 48 8 ≤ place

/-- The directory that a wide end record tells of.  The record stands where the locator says, or
later if data stand in front of the archive. -/
def Locator.directory (l : Locator) (bytes : List UInt8) : Option Place := do
  if l.place ≤ l.offset || 1 < l.disks then none
  let base ← (placesOf wideMark (slice bytes l.offset (l.place - l.offset))).find? fun base =>
    l.means bytes (l.offset + base)
  let record := bytes.drop (l.offset + base)
  let count := field record 32 8
  if count < field record 24 8 then none
  if field record 12 2 < field record 14 2 then none
  if field record 16 4 ≠ field record 20 4 then none
  return ⟨base, base + field record 48 8, count⟩

/-- An end record. -/
structure EndRecord where
  /-- Where the record itself is. -/
  place : Nat
  /-- The disk of the record. -/
  disk : Nat
  /-- The disk where the directory begins. -/
  directoryDisk : Nat
  /-- The number of entries on this disk. -/
  count : Nat
  /-- The number of entries on all disks. -/
  total : Nat
  /-- Where the directory begins, counted from where the archive begins. -/
  offset : Nat

namespace EndRecord

/-- The end record at a place, if it is there with its whole comment. -/
def read (bytes : List UInt8) (place : Nat) : Option EndRecord :=
  let record := bytes.drop place
  if isRecord endMark 22 record && hasBytes (22 + field record 20 2) record then
    some
      { place
        disk := field record 4 2
        directoryDisk := field record 6 2
        count := field record 8 2
        total := field record 10 2
        offset := field record 16 4 }
  else none

/-- Some number may be too large for the record. -/
def mayBeWide (r : EndRecord) : Bool := r.total = 0xFFFF || r.offset = 0xFFFFFFFF

/-- Where the archive begins if no number is too large for the record.  An archive without entries
has its directory right in front of the end record; else the directory begins with the first mark
from the place on that the record tells. -/
def base? (r : EndRecord) (bytes : List UInt8) : Option Nat :=
  if r.total = 0 then some (r.place - r.offset)
  else if r.offset < r.place then
    (placesOf directoryMark (slice bytes r.offset (r.place - r.offset))).head?
  else none

/-- The directory that the record tells of by itself.  It has to be on the disk of the record. -/
def narrowDirectory (r : EndRecord) (bytes : List UInt8) : Option Place := do
  if r.disk ≠ r.directoryDisk then none
  let base ← r.base? bytes
  return ⟨base, base + r.offset, r.count⟩

/-- The directory that the record tells of, by itself or with a locator. -/
def directory (r : EndRecord) (bytes : List UInt8) : Option Place :=
  match if r.mayBeWide then locator? bytes r.place else none with
  | some l => l.directory bytes
  | none => r.narrowDirectory bytes

end EndRecord

end LinearScore.Archive
