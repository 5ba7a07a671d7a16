import LinearScore.Markup.Character
import LinearScore.Text.Numeral

/-!
# References and line ends

A text may refer to single characters by number, to five characters by name, and to the entities
that the document declares.

## Main definitions

* `Piece`, `pieces`: a text cut into characters and references
* `TextBuffer`: a run of text in the making, in which line ends become line feeds
-/

namespace LinearScore.Markup

/-- A character of a text or a reference in it. -/
inductive Piece where
  | char (c : Char)
  /-- A character that a reference names. -/
  | referred (c : Char)
  | entity (name : String)
  deriving DecidableEq

/-- The value of hexadecimal digits. -/
def hexValue? (cs : List Char) : Option Nat :=
  cs.foldl (fun value c => do
    let value ← value
    if c.isDigit then some (16 * value + (c.toNat - '0'.toNat))
    else if 'a' ≤ c && c ≤ 'f' then some (16 * value + (c.toNat - 'a'.toNat + 10))
    else if 'A' ≤ c && c ≤ 'F' then some (16 * value + (c.toNat - 'A'.toNat + 10))
    else none) (if cs.isEmpty then none else some 0)

/-- The character with a number of up to 32 bits.  A number that no character has stands for the
replacement character; a character that may not stand in a document is refused. -/
def charOfNumber? (n : Nat) : Option Char :=
  let c := if n.isValidChar then Char.ofNat n else '\uFFFD'
  if n ≤ 0xFFFFFFFF && isAllowed c then some c else none

/-- The characters with names of their own. -/
def namedChar? (name : String) : Option Char :=
  [("quot", '"'), ("amp", '&'), ("apos", '\''), ("lt", '<'), ("gt", '>')].lookup name

/-- The reference with a given text between its ampersand and its semicolon. -/
def reference? (cs : List Char) : Option Piece :=
  match cs with
  | '#' :: 'x' :: digits => (hexValue? digits).bind charOfNumber? |>.map .referred
  | '#' :: digits => (Text.digits? digits).bind charOfNumber? |>.map .referred
  | cs =>
    match takeName cs with
    | some (name, []) =>
      let name := String.ofList name
      some (match namedChar? name with | some c => .referred c | none => .entity name)
    | _ => none

/-- The pieces of a text.  `pending` holds the characters of a reference that is not closed yet,
the last one first. -/
def piecesFrom (pending : Option (List Char)) : List Char → Option (List Piece)
  | [] => if pending.isNone then some [] else none
  | c :: cs =>
    match pending with
    | none =>
      if c = '&' then piecesFrom (some []) cs
      else (piecesFrom none cs).map (.char c :: ·)
    | some read =>
      if c = ';' then do
        let piece ← reference? read.reverse
        let rest ← piecesFrom none cs
        return piece :: rest
      else piecesFrom (some (c :: read)) cs

/-- The pieces of a text; a reference that is not well formed makes the text malformed. -/
def pieces (cs : List Char) : Option (List Piece) := piecesFrom none cs

/-- A run of text in the making, its last character first.  After a character that a reference
names, one more character is taken as it is. -/
structure TextBuffer where
  reversed : List Char := []
  verbatim : Bool := false

namespace TextBuffer

/-- Adds a character as it is. -/
def addVerbatim (b : TextBuffer) (c : Char) (verbatim : Bool) : TextBuffer :=
  ⟨c :: b.reversed, verbatim⟩

/-- Adds a character of the text.  A carriage return becomes a line feed once the character behind
it is known, and vanishes in front of a line feed. -/
def addText (b : TextBuffer) (c : Char) (isLast : Bool) : TextBuffer :=
  let c' := if isLast && c = '\r' then '\n' else c
  match b.reversed with
  | '\r' :: before =>
    if c = '\n' then { b with reversed := '\n' :: before }
    else { b with reversed := c' :: '\n' :: before }
  | before => { b with reversed := c' :: before }

/-- Adds a character, as it is if one is due as it is. -/
def add (b : TextBuffer) (c : Char) (isLast : Bool) : TextBuffer :=
  if b.verbatim then b.addVerbatim c false else b.addText c isLast

end TextBuffer

/-- The text of a section without references: only its line ends change. -/
def literalText (cs : List Char) : List Char :=
  let rec go (b : TextBuffer) : List Char → TextBuffer
    | [] => b
    | c :: cs => go (b.addText c cs.isEmpty) cs
  (go {} cs).reversed.reverse

end LinearScore.Markup
