/-!
# Decoding UTF-8

A byte sequence is well formed when each character has its shortest form, no surrogate and nothing
above U+10FFFF.  A fault says where the well-formed part ends and, unless the bytes just stop
there, how many bytes belong to the sequence that is broken off: the longest beginning of some
character, at least one byte.

## Main definitions

* `Utf8Fault`
* `decodeUtf8`: the characters of a byte sequence
-/

namespace LinearScore.Text

/-- Where a byte sequence stops being well formed. -/
structure Utf8Fault where
  /-- The number of bytes before. -/
  index : Nat
  /-- The length of the broken sequence, if the bytes do not just end there. -/
  length : Option Nat
  deriving DecidableEq

/-- The text of a fault. -/
def Utf8Fault.message (f : Utf8Fault) : String :=
  match f.length with
  | some n =>
    "invalid utf-8 sequence of " ++ toString n ++ " bytes from index " ++ toString f.index
  | none => "incomplete utf-8 byte sequence from index " ++ toString f.index

/-- The first byte of a character of more than one byte: the number of bytes that follow, the bits
it carries, and the range in which the second byte must lie. -/
def utf8Lead (b : UInt8) : Option (Nat × Nat × UInt8 × UInt8) :=
  if 0xC2 ≤ b && b ≤ 0xDF then some (1, b.toNat - 0xC0, 0x80, 0xBF)
  else if b = 0xE0 then some (2, 0, 0xA0, 0xBF)
  else if b = 0xED then some (2, 0xD, 0x80, 0x9F)
  else if 0xE1 ≤ b && b ≤ 0xEF then some (2, b.toNat - 0xE0, 0x80, 0xBF)
  else if b = 0xF0 then some (3, 0, 0x90, 0xBF)
  else if 0xF1 ≤ b && b ≤ 0xF3 then some (3, b.toNat - 0xF0, 0x80, 0xBF)
  else if b = 0xF4 then some (3, 4, 0x80, 0x8F)
  else none

/-- What is open in the middle of a character. -/
structure Utf8Pending where
  /-- The bytes read so far. -/
  seen : Nat
  /-- The bytes still to come. -/
  missing : Nat
  /-- The bits collected so far. -/
  bits : Nat
  /-- The range of the next byte. -/
  low : UInt8
  high : UInt8

/-- Reads bytes from `index` on, where `pending` is the character that they are in the middle
of. -/
def decodeUtf8From (index : Nat) (pending : Option Utf8Pending) (acc : List Char) :
    List UInt8 → Except Utf8Fault (List Char)
  | [] =>
    match pending with
    | none => .ok acc.reverse
    | some p => .error ⟨index - p.seen, none⟩
  | b :: bs =>
    match pending with
    | none =>
      if b < 0x80 then decodeUtf8From (index + 1) none (Char.ofNat b.toNat :: acc) bs
      else
        match utf8Lead b with
        | some (missing, bits, low, high) =>
          decodeUtf8From (index + 1) (some ⟨1, missing, bits, low, high⟩) acc bs
        | none => .error ⟨index, some 1⟩
    | some p =>
      if p.low ≤ b && b ≤ p.high then
        let bits := p.bits * 64 + (b.toNat - 0x80)
        if p.missing = 1 then decodeUtf8From (index + 1) none (Char.ofNat bits :: acc) bs
        else
          decodeUtf8From (index + 1) (some ⟨p.seen + 1, p.missing - 1, bits, 0x80, 0xBF⟩) acc bs
      else .error ⟨index - p.seen, some p.seen⟩

/-- The characters that a byte sequence encodes. -/
def decodeUtf8 (bytes : List UInt8) : Except Utf8Fault (List Char) :=
  decodeUtf8From 0 none [] bytes

end LinearScore.Text
