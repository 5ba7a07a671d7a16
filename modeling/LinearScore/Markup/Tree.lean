/-!
# Markup trees

A document is a tree of elements.  Between the elements stand runs of text and asides, that is
comments and processing instructions, which only matter because they part runs of text.  An element
is known by its local name, and of its attributes only those without a prefix are kept.

## Main definitions

* `Markup.Node`, `Markup.Tree`: a piece of content, and an element
* `Markup.Tree.children`, `Markup.Tree.text?`, `Markup.Tree.attribute?`
* `Markup.Reader`: a function that reads documents
-/

namespace LinearScore.Markup

/-- A piece of the content of an element. -/
inductive Node where
  | element (name : String) (attributes : List (String × String)) (content : List Node)
  | text (s : String)
  | aside

/-- An element. -/
structure Tree where
  name : String
  attributes : List (String × String) := []
  content : List Node := []

/-- The element that a node is, if it is one. -/
def Node.tree? : Node → Option Tree
  | element name attributes content => some ⟨name, attributes, content⟩
  | _ => none

namespace Tree

/-- The element as a piece of content. -/
def node (t : Tree) : Node := .element t.name t.attributes t.content

/-- The elements in the content of an element. -/
def children (t : Tree) : List Tree := t.content.filterMap Node.tree?

/-- The first element with a given name in the content of an element. -/
def child? (t : Tree) (name : String) : Option Tree := t.children.find? (·.name = name)

/-- The text of an element: the run of text that its content starts with. -/
def text? (t : Tree) : Option String :=
  match t.content with
  | .text s :: _ => some s
  | _ => none

/-- The value of an attribute. -/
def attribute? (t : Tree) (name : String) : Option String := t.attributes.lookup name

end Tree

mutual

/-- The elements of a node in document order, each before its content. -/
def Node.elements : Node → List Tree
  | .element name attributes content =>
    ⟨name, attributes, content⟩ :: elementsOf content
  | .text _ => []
  | .aside => []

/-- The elements of some content in document order. -/
def elementsOf : List Node → List Tree
  | [] => []
  | node :: nodes => node.elements ++ elementsOf nodes

end

/-- A function that reads the root element of a document, if it accepts the document.  A document
type may be allowed or not. -/
abbrev Reader := (allowType : Bool) → (text : String) → Option Tree

end LinearScore.Markup
