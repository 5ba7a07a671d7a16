import LinearScore.Archive.Extra
import LinearScore.Archive.Name
import LinearScore.Archive.Place

/-!
# Directories

The directory of an archive lists its entries.  The end record is looked for from the end of the
archive on: the last one whose directory can be read counts.

## Main definitions

* `takeEntry`: the entry at the front of a directory
* `readDirectory`: the entries of an archive
-/

namespace LinearScore.Archive

/-- The entry that a record in the directory describes by its fixed fields. -/
def fixedEntry (record : List UInt8) : Entry :=
  let unicode := (field record 8 2).testBit 11
  let nameSize := field record 28 2
  let rawName := slice record 46 nameSize
  let comment := slice record (46 + nameSize + field record 30 2) (field record 32 2)
  { name := entryText unicode rawName
    rawName
    comment := (entryText unicode comment).toUTF8.data.toList
    encrypted := (field record 8 2).testBit 0
    method := field record 10 2
    checksum := field record 16 4
    size := field record 20 4
    fullSize := field record 24 4
    header := field record 42 4 }

/-- The entry at the front of a directory, and what follows.  Its header stands in front of the
directory. -/
def takeEntry (p : Place) (bytes : List UInt8) : Option (Entry × List UInt8) := do
  if !isRecord directoryMark 46 bytes then none
  let nameSize := field bytes 28 2
  let extraSize := field bytes 30 2
  let next := 46 + nameSize + extraSize + field bytes 32 2
  if !hasBytes next bytes then none
  let e ← (fixedEntry bytes).amend (slice bytes (46 + nameSize) extraSize)
  let header := p.base + e.header
  if p.start ≤ header then none
  return ({ e with header }, bytes.drop next)

/-- Entries with one more behind them.  A name that occurs again takes the place of the entry
before. -/
def putEntry (entries : List Entry) (entry : Entry) : List Entry :=
  if entries.any (·.name = entry.name) then
    entries.map fun e => if e.name = entry.name then entry else e
  else entries ++ [entry]

/-- The next `n` entries of a directory, behind those that were read before. -/
def readEntries (p : Place) : Nat → List Entry → List UInt8 → Option (List Entry)
  | 0, entries, _ => some entries
  | n + 1, entries, bytes => do
    let (entry, rest) ← takeEntry p bytes
    readEntries p n (putEntry entries entry) rest

/-- The entries of an archive. -/
def readDirectory (bytes : List UInt8) : Option (List Entry) :=
  (placesOf endMark bytes).reverse.findSome? fun place => do
    let p ← (← EndRecord.read bytes place).directory bytes
    readEntries p p.count [] (bytes.drop p.start)

end LinearScore.Archive
