/-!
# Characters and names of markup

## Main definitions

* `isAllowed`, `isSpace`, `isNameStart`, `isNameChar`
* `takeName`, `takeQualified`: the name at the front of a text
-/

namespace LinearScore.Markup

/-- The character may stand in a document. -/
def isAllowed (c : Char) : Bool :=
  if c.toNat < 0x20 then c = '\t' || c = '\n' || c = '\r'
  else c.toNat ≠ 0xFFFE && c.toNat ≠ 0xFFFF

/-- The white space between the parts of a tag. -/
def isSpace (c : Char) : Bool := c = ' ' || c = '\t' || c = '\n' || c = '\r'

/-- The ranges outside ASCII of the characters that a name can start with. -/
def nameStartRanges : List (Nat × Nat) :=
  [(0xC0, 0xD6), (0xD8, 0xF6), (0xF8, 0x2FF), (0x370, 0x37D), (0x37F, 0x1FFF), (0x200C, 0x200D),
   (0x2070, 0x218F), (0x2C00, 0x2FEF), (0x3001, 0xD7FF), (0xF900, 0xFDCF), (0xFDF0, 0xFFFD),
   (0x10000, 0xEFFFF)]

/-- The further ranges outside ASCII of the characters inside a name. -/
def nameCharRanges : List (Nat × Nat) := [(0xB7, 0xB7), (0x300, 0x36F), (0x203F, 0x2040)]

/-- The character lies in one of the ranges. -/
def inRanges (ranges : List (Nat × Nat)) (c : Char) : Bool :=
  ranges.any fun (low, high) => low ≤ c.toNat && c.toNat ≤ high

/-- A name can start with the character. -/
def isNameStart (c : Char) : Bool :=
  c.isAlpha || c = ':' || c = '_' || inRanges nameStartRanges c

/-- The character can stand inside a name. -/
def isNameChar (c : Char) : Bool :=
  isNameStart c || c.isDigit || c = '-' || c = '.' || inRanges nameCharRanges c

/-- A text without the white space in front. -/
def skipSpaces (cs : List Char) : List Char := cs.dropWhile isSpace

/-- What follows white space, of which there has to be some. -/
def requireSpaces : List Char → Option (List Char)
  | c :: cs => if isSpace c then some (skipSpaces cs) else none
  | [] => none

/-- What follows a given beginning. -/
def after? (beginning : List Char) (cs : List Char) : Option (List Char) :=
  if beginning.isPrefixOf cs then some (cs.drop beginning.length) else none

/-- What stands before and behind the first occurrence of a pattern. -/
def breakAt (pattern : List Char) : List Char → Option (List Char × List Char)
  | [] => none
  | c :: cs =>
    match after? pattern (c :: cs) with
    | some rest => some ([], rest)
    | none => (breakAt pattern cs).map fun (before, rest) => (c :: before, rest)

/-- The name at the front of a text and what follows it. -/
def takeName (cs : List Char) : Option (List Char × List Char) :=
  match cs with
  | c :: rest =>
    if isNameStart c then some (c :: rest.takeWhile isNameChar, rest.dropWhile isNameChar)
    else none
  | [] => none

/-- A name with the prefix in front of its colon, which is empty when there is none. -/
structure QualifiedName where
  space : String
  name : String
  deriving DecidableEq

/-- The part of a name on one side of a colon, if it starts as a name does. -/
def namePart? (cs : List Char) : Option String :=
  match cs with
  | c :: _ => if isNameStart c then some (String.ofList cs) else none
  | [] => none

/-- A name cut at its colon, of which there may be one. -/
def qualify (cs : List Char) : Option QualifiedName :=
  match cs.span (· ≠ ':') with
  | (name, []) => (namePart? name).map (⟨"", ·⟩)
  | (space, _ :: name) => do
    if name.contains ':' then none
    let name ← namePart? name
    if space.isEmpty then return ⟨"", name⟩
    return ⟨← namePart? space, name⟩

/-- The qualified name at the front of a text and what follows it. -/
def takeQualified (cs : List Char) : Option (QualifiedName × List Char) :=
  (qualify (cs.takeWhile isNameChar)).map (·, cs.dropWhile isNameChar)

/-- What follows an equals sign with white space around it. -/
def takeEquals (cs : List Char) : Option (List Char) :=
  match skipSpaces cs with
  | '=' :: rest => some (skipSpaces rest)
  | _ => none

/-- The quotation mark at the front of a text. -/
def takeQuote : List Char → Option (Char × List Char)
  | '"' :: cs => some ('"', cs)
  | '\'' :: cs => some ('\'', cs)
  | _ => none

end LinearScore.Markup
