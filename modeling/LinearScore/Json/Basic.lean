/-!
# JSON text

## Main definitions

* `Json`: a value without floating-point numbers; an object keeps the order of its members
* `Json.pretty`: the text of a value, indented by two spaces

Empty arrays and objects stay on one line; otherwise each member has a line of its own.
-/

namespace LinearScore

/-- A value of the data format. -/
inductive Json where
  | null
  | bool (b : Bool)
  | int (n : Int)
  | string (s : String)
  | array (values : List Json)
  | object (members : List (String × Json))

namespace Json

/-- A hexadecimal number of four digits. -/
def fourDigits (n : Nat) : List Char :=
  let digits := Nat.toDigits 16 n
  List.replicate (4 - digits.length) '0' ++ digits

/-- A character inside a string: quotation marks, backslashes and control characters are
escaped. -/
def escapedChar (c : Char) : List Char :=
  match c with
  | '"' => ['\\', '"']
  | '\\' => ['\\', '\\']
  | '\n' => ['\\', 'n']
  | '\r' => ['\\', 'r']
  | '\t' => ['\\', 't']
  | '\x08' => ['\\', 'b']
  | '\x0c' => ['\\', 'f']
  | c => if c.toNat < 0x20 then ['\\', 'u'] ++ fourDigits c.toNat else [c]

/-- A string between quotation marks. -/
def quoted (s : String) : String :=
  "\"" ++ String.ofList (s.toList.flatMap escapedChar) ++ "\""

/-- The break in front of a line at a depth. -/
def lineBreak (depth : Nat) : String := "\n" ++ String.ofList (List.replicate (2 * depth) ' ')

/-- Texts between brackets, each on a line of its own. -/
def bracket (left right : String) (depth : Nat) (texts : List String) : String :=
  if texts.isEmpty then left ++ right
  else
    left ++ String.intercalate "," (texts.map (lineBreak (depth + 1) ++ ·)) ++
      lineBreak depth ++ right

mutual

/-- The text of a value whose members stand at a depth. -/
def prettyAt (depth : Nat) : Json → String
  | null => "null"
  | bool b => if b then "true" else "false"
  | int n => toString n
  | string s => quoted s
  | array values => bracket "[" "]" depth (prettyValues (depth + 1) values)
  | object members => bracket "\x7b" "\x7d" depth (prettyMembers (depth + 1) members)

/-- The texts of the values of an array. -/
def prettyValues (depth : Nat) : List Json → List String
  | [] => []
  | value :: values => prettyAt depth value :: prettyValues depth values

/-- The texts of the members of an object. -/
def prettyMembers (depth : Nat) : List (String × Json) → List String
  | [] => []
  | (key, value) :: members =>
    (quoted key ++ ": " ++ prettyAt depth value) :: prettyMembers depth members

end

/-- The text of a value. -/
def pretty (value : Json) : String := prettyAt 0 value

/-- A value that may be absent. -/
def ofOption {α : Type} (f : α → Json) : Option α → Json
  | some a => f a
  | none => null

/-- A list of values. -/
def ofList {α : Type} (f : α → Json) (as : List α) : Json := array (as.map f)

/-- A natural number. -/
def nat (n : Nat) : Json := int n

end Json

end LinearScore
