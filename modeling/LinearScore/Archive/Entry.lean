import LinearScore.Archive.Checksum
import LinearScore.Archive.Inflate
import LinearScore.Archive.Record
import LinearScore.Failure

/-!
# Entries

The directory of an archive says what an entry is called, how its data are stored and where their
header is.  Only when an entry is opened does it matter whether its data can be read.

## Main definitions

* `Entry`
* `Entry.stored`, `Entry.read`, `Entry.readText`: the data of an entry as stored, and as meant
-/

namespace LinearScore.Archive

/-- What the directory says about an entry. -/
structure Entry where
  name : String
  /-- The name as it is stored. -/
  rawName : List UInt8
  /-- The comment in UTF-8. -/
  comment : List UInt8
  encrypted : Bool
  /-- The entry is encrypted by a method of its own kind. -/
  guarded : Bool := false
  /-- How the data are compressed: `0` for not at all, `8` for blocks of codes. -/
  method : Nat
  checksum : Nat
  /-- The number of bytes as stored. -/
  size : Nat
  /-- The number of bytes as meant. -/
  fullSize : Nat
  /-- Where the header in front of the data begins. -/
  header : Nat

namespace Entry

/-- The entry can be opened: its data are not encrypted, and their method is known. -/
def isPlain (e : Entry) : Bool :=
  !e.encrypted && !e.guarded && (e.method = 0 || e.method = 8)

/-- The data of an entry as stored, if the entry can be read at all.  They may end early. -/
def stored (e : Entry) (bytes : List UInt8) : Option (List UInt8) :=
  let record := bytes.drop e.header
  if e.isPlain && isRecord headerMark 30 record then
    some (slice record (30 + field record 26 2 + field record 28 2) e.size)
  else none

/-- The data of an entry, checked. -/
def read (e : Entry) (stored : List UInt8) : Except AccessFault (List UInt8) := do
  let data ← if e.method = 0 then .ok stored
    else match inflate stored with
      | .ok data => .ok data
      | .error _ => .error .corrupt
  if (Archive.checksum data).toNat = e.checksum then .ok data else .error .checksum

/-- The text of an entry. -/
def readText (e : Entry) (stored : List UInt8) : Except Failure String :=
  match e.read stored with
  | .error fault => .error (.access fault)
  | .ok data =>
    match Text.decodeUtf8 data with
    | .ok cs => .ok (String.ofList cs)
    | .error _ => .error (.access .notText)

end Entry

end LinearScore.Archive
