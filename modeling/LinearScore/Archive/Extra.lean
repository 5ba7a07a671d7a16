import LinearScore.Archive.Entry

/-!
# Extra fields

Behind the name of an entry stand fields of further kinds, each with its kind and its size in
front.  Some change what the directory says about the entry: numbers that are too large for it, a
name or a comment in UTF-8, a method of encryption.  Fields of other kinds are passed over.  A
field that breaks the rules of its kind makes the archive malformed, but fields may end early: what
was read until then holds.

## Main definitions

* `ExtraReader`: reading that changes an entry
* `Entry.amend`: an entry as its extra fields change it
-/

namespace LinearScore.Archive

/-- Why extra fields are not read to their end. -/
inductive ExtraStop where
  /-- The bytes end inside a field. -/
  | short
  /-- A field breaks the rules of its kind. -/
  | refused
  deriving DecidableEq

/-- The entry as it is changed so far, and the bytes that are left. -/
structure ExtraState where
  entry : Entry
  rest : List UInt8

/-- Reading of extra fields.  What was changed before it stops is kept. -/
abbrev ExtraReader := EStateM ExtraStop ExtraState

namespace ExtraReader

/-- The next `n` bytes. -/
def take (n : Nat) : ExtraReader (List UInt8) := fun s =>
  if hasBytes n s.rest then .ok (s.rest.take n) { s with rest := s.rest.drop n }
  else .error .short s

/-- The number in the next `n` bytes. -/
def number (n : Nat) : ExtraReader Nat := do return littleEndian (← take n)

/-- Passes over `n` bytes. -/
def skip (n : Nat) : ExtraReader Unit := do
  let _ ← take n

/-- Refuses the field unless a condition holds. -/
def demand (condition : Bool) : ExtraReader Unit :=
  if condition then pure () else throw .refused

/-- Changes the entry. -/
def change (f : Entry → Entry) : ExtraReader Unit :=
  modify fun s => { s with entry := f s.entry }

/-- The number that stands in the directory in place of one that is too large for it. -/
def tooLarge : Nat := 0xFFFFFFFF

/-- Reads a wide number if it is there, and gives the number of bytes that it takes.  It is there
if the field is `long` enough for all of them, or the directory lacks the number. -/
def widen (long : Bool) (number? : Entry → Nat) (set : Entry → Nat → Entry) :
    ExtraReader Nat := do
  if long || number? (← get).entry = tooLarge then
    let n ← number 8
    change (set · n)
    return 8
  else return 0

/-- The wide numbers of an entry. -/
def readWide (size : Nat) : ExtraReader Unit := do
  let long : Bool := 24 ≤ size
  let first ← widen long (·.fullSize) fun e n => { e with fullSize := n }
  let second ← widen long (·.size) fun e n => { e with size := n }
  let third ← widen long (·.header) fun e n => { e with header := n }
  let taken := first + second + third
  demand (taken ≤ size)
  skip (size - taken)

/-- Three times with a frame of their own around them. -/
def readFramedTimes (size : Nat) : ExtraReader Unit := do
  demand (size = 32)
  skip 4
  demand ((← number 2) = 1)
  demand ((← number 2) = 24)
  skip 24

/-- Up to three times, with flags that say which are there.  Only the first may be there although
the flags announce more. -/
def readFlaggedTimes (size : Nat) : ExtraReader Unit := do
  let flags ← number 1
  demand (size = 5 || size = 1 + 4 * (List.range 8).countP flags.testBit)
  demand (flags < 8)
  if flags.testBit 0 || size = 5 then skip 4
  if flags.testBit 1 && 5 < size then skip 4
  if flags.testBit 2 && 5 < size then skip 4

/-- The method of encryption of the entry, and how its data are compressed in truth. -/
def readGuard (size : Nat) : ExtraReader Unit := do
  demand (size = 7)
  let version ← number 2
  let vendor ← number 2
  let strength ← number 1
  let method ← number 2
  demand (vendor = 0x4541)
  demand (version = 1 || version = 2)
  demand (1 ≤ strength && strength ≤ 3)
  change fun e => { e with guarded := true, method }

/-- The text in UTF-8 that takes the place of some bytes of the entry, of which it holds the
checksum. -/
def replacement (size : Nat) (replaced : Entry → List UInt8) :
    ExtraReader (List UInt8 × String) := do
  skip 1
  let check ← number 4
  demand (5 ≤ size)
  let content ← take (size - 5)
  demand (check = (checksum (replaced (← get).entry)).toNat)
  match Text.decodeUtf8 content with
  | .ok cs => return (content, String.ofList cs)
  | .error _ => throw .refused

/-- A comment. -/
def readComment (size : Nat) : ExtraReader Unit := do
  let (comment, _) ← replacement size (·.comment)
  change fun e => { e with comment }

/-- A name. -/
def readName (size : Nat) : ExtraReader Unit := do
  let (rawName, name) ← replacement size (·.rawName)
  change fun e => { e with rawName, name }

/-- A field of a given kind and size. -/
def readField (kind size : Nat) : ExtraReader Unit :=
  match kind with
  | 0x0001 => readWide size
  | 0x000A => readFramedTimes size
  | 0x5455 => readFlaggedTimes size
  | 0x6375 => readComment size
  | 0x7075 => readName size
  | 0x9901 => readGuard size
  | _ => skip size

/-- The fields up to the end of the bytes.  Each takes at least four bytes, which bounds the
fuel. -/
def readFields : Nat → ExtraReader Unit
  | 0 => pure ()
  | fuel + 1 => do
    if (← get).rest.isEmpty then return
    let kind ← number 2
    let size ← number 2
    readField kind size
    readFields fuel

end ExtraReader

/-- The method that stands in the directory in place of one that an extra field tells. -/
def guardedMethod : Nat := 99

/-- The entry as its extra fields change it. -/
def Entry.amend (e : Entry) (extra : List UInt8) : Option Entry :=
  let amended := match ExtraReader.readFields extra.length ⟨e, extra⟩ with
    | .ok _ s => some s.entry
    | .error .short s => some s.entry
    | .error .refused _ => none
  amended.filter fun e => e.guarded || e.method ≠ guardedMethod

end LinearScore.Archive
