import LinearScore.Markup.Tree

/-!
# Writing markup

A document is written with one element a line: an element without content, an element with text,
or the two tags of an element around the lines of its children.

## Main definitions

* `Outline`: an element to be written
* `Outline.text`: its lines, indented by two spaces for each level
* `Outline.tree`: the element that is written
-/

namespace LinearScore.Markup

/-- An element to be written. -/
inductive Outline where
  /-- An element without content, in one tag. -/
  | empty (name : String) (attributes : List (String × String))
  /-- An element with text, in one line. -/
  | leaf (name : String) (attributes : List (String × String)) (text : String)
  /-- An element with its children in lines of their own. -/
  | block (name : String) (attributes : List (String × String)) (children : List Outline)

/-- A character as it is written in text and in attribute values. -/
def escapedChar (c : Char) : List Char :=
  match c with
  | '&' => "&amp;".toList
  | '<' => "&lt;".toList
  | '>' => "&gt;".toList
  | '"' => "&quot;".toList
  | '\'' => "&apos;".toList
  | c => [c]

/-- A text as it is written. -/
def escaped (s : String) : String := String.ofList (s.toList.flatMap escapedChar)

/-- Attributes as they are written behind the name of an element. -/
def attributesText : List (String × String) → String
  | [] => ""
  | (name, value) :: rest => " " ++ name ++ "=\"" ++ escaped value ++ "\"" ++ attributesText rest

/-- A line at a level. -/
def line (depth : Nat) (content : String) : String :=
  String.ofList (List.replicate (2 * depth) ' ') ++ content ++ "\n"

namespace Outline

mutual

/-- The lines of an element at a level. -/
def text (depth : Nat) : Outline → String
  | empty name attributes => line depth ("<" ++ name ++ attributesText attributes ++ "/>")
  | leaf name attributes s =>
    line depth
      ("<" ++ name ++ attributesText attributes ++ ">" ++ escaped s ++ "</" ++ name ++ ">")
  | block name attributes children =>
    line depth ("<" ++ name ++ attributesText attributes ++ ">") ++
      textOf (depth + 1) children ++ line depth ("</" ++ name ++ ">")

/-- The lines of some elements at a level. -/
def textOf (depth : Nat) : List Outline → String
  | [] => ""
  | e :: es => e.text depth ++ textOf depth es

end

mutual

/-- The element that is written, without the white space around its children. -/
def node : Outline → Node
  | empty name attributes => .element name attributes []
  | leaf name attributes s => .element name attributes [.text s]
  | block name attributes children => .element name attributes (nodesOf children)

/-- The elements that are written. -/
def nodesOf : List Outline → List Node
  | [] => []
  | e :: es => e.node :: nodesOf es

end

/-- The element that is written, as a tree. -/
def tree : Outline → Tree
  | empty name attributes => ⟨name, attributes, []⟩
  | leaf name attributes s => ⟨name, attributes, [.text s]⟩
  | block name attributes children => ⟨name, attributes, nodesOf children⟩

/-- An element with text that has no attributes. -/
def field (name text : String) : Outline := leaf name [] text

/-- An element under a condition. -/
def onlyIf (condition : Bool) (e : Outline) : List Outline := if condition then [e] else []

/-- An element for a value that may be absent. -/
def ofOption {α : Type} (build : α → Outline) : Option α → List Outline
  | some a => [build a]
  | none => []

end Outline

end LinearScore.Markup
