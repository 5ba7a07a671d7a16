import LinearScore.Markup.Namespace
import LinearScore.Markup.Reference
import LinearScore.Markup.Tree

/-!
# Building a tree

The events of a document, and of the texts of the entities that it refers to, build one tree.
Entities may refer to entities, up to ten deep, and inside entities at most 255 references are
followed before the document itself goes on.

The text of an entity may end elements that were started outside of it, the root among them, and
start elements that end outside of it.  It may also end inside a start tag: no element starts then,
and the attributes wait for the next tag that is whole.

## Main definitions

* `Builder`: the elements that are open, with what they hold so far
* `Builder.run`: the tree after some events
-/

namespace LinearScore.Markup

/-- The texts of the declared entities by name; the first declaration of a name counts. -/
abbrev Entities := List (String × List Char)

/-- How deep entities may refer to entities. -/
def depthLimit : Nat := 10

/-- How many references are followed inside entities. -/
def referenceLimit : Nat := 255

/-- An element that is not closed yet. -/
structure OpenElement where
  name : QualifiedName
  attributes : List (String × String)
  scope : Scope
  /-- The content so far, the last node first. -/
  reversed : List Node

/-- The state of the construction. -/
structure Builder where
  /-- The elements that are not closed yet, the innermost first. -/
  openElements : List OpenElement := []
  /-- The root, once it is closed. -/
  root : Option Tree := none
  /-- The attributes of start tags that were cut short, until a whole tag takes them. -/
  pending : SortedAttributes := {}
  /-- A start tag has been met since the last text, so the next text does not join it. -/
  parted : Bool := false
  /-- The number of references followed inside entities. -/
  followed : Nat := 0
  /-- A start tag has been met in the text at hand. -/
  started : Bool := false

namespace Builder

/-- The element as a tree. -/
def close (e : OpenElement) : Tree := ⟨e.name.name, e.attributes, e.reversed.reverse⟩

/-- Puts a node behind the content of the innermost element. -/
def addNode (b : Builder) (node : Node) : Builder :=
  match b.openElements with
  | [] => b
  | e :: es => { b with openElements := { e with reversed := node :: e.reversed } :: es }

/-- Content with text behind it, the last node first.  Text joins the text before it unless it is
parted from it. -/
def withText (parted : Bool) (s : String) : List Node → List Node
  | .text before :: nodes =>
    if parted then .text s :: .text before :: nodes else .text (before ++ s) :: nodes
  | nodes => .text s :: nodes

/-- Puts text behind the content of the innermost element. -/
def addText (b : Builder) (s : String) : Builder :=
  match b.openElements with
  | [] => b
  | e :: es =>
    { b with
      parted := false
      openElements := { e with reversed := withText b.parted s e.reversed } :: es }

/-- Puts a finished run of text behind the content, if it holds anything. -/
def flush (b : Builder) (buffer : TextBuffer) : Builder :=
  if buffer.reversed.isEmpty then b else b.addText (String.ofList buffer.reversed.reverse)

/-- Closes a tree: it goes into the element around it, or is the root.  The first root counts. -/
def finish (b : Builder) (t : Tree) : Builder :=
  match b.openElements with
  | [] => { b with root := b.root.or (some t) }
  | _ => b.addNode t.node

/-- The scope in force. -/
def scope (b : Builder) : Scope := (b.openElements.head?.map (·.scope)).getD []

/-- The scope that the attributes of a whole tag make, and those without a prefix, with the builder
after the tag has taken them. -/
def resolve (b : Builder) : Option (Scope × List (String × String) × Builder) := do
  let (scope, kept) ← b.pending.resolve b.scope
  return (scope, kept, { b with pending := {} })

/-- Meets a start tag: it starts an element, and closes it again if it is empty. -/
def start (b : Builder) (name : QualifiedName) (attributes : List Attribute) (ending : TagEnd) :
    Option Builder := do
  if name.space = "xmlns" then none
  let pending ← b.pending.add attributes
  let b := { b with pending, started := true, parted := true }
  if ending = .cut then return b
  let (scope, kept, b) ← b.resolve
  if !scope.binds name then none
  if ending = .empty then return b.finish ⟨name.name, kept, []⟩
  return { b with openElements := ⟨name, kept, scope, []⟩ :: b.openElements }

/-- Ends the innermost element, whose name has to match.  The text of an entity cannot end an
element before it has met a start tag.  Attributes that are waiting have to stand in bound
namespaces here, and are dropped. -/
def stop (b : Builder) (name : QualifiedName) : Option Builder := do
  let (_, _, b) ← b.resolve
  match b.openElements with
  | [] => none
  | e :: es =>
    if b.started && e.name = name then some ({ b with openElements := es }.finish (close e))
    else none

/-- Counts a reference that is followed; those of the document itself are not counted. -/
def follow (b : Builder) (outermost : Bool) : Option Builder :=
  if outermost then some b
  else if referenceLimit ≤ b.followed then none
  else some { b with followed := b.followed + 1 }

/-- Back from an entity: behind a reference of the document itself the count starts again. -/
def back (b : Builder) (outermost : Bool) : Builder :=
  if outermost then { b with followed := 0 } else b

end Builder

/-- The character of an attribute value: white space is a plain space. -/
def plainSpace (c : Char) : Char := if c = '\n' || c = '\r' || c = '\t' then ' ' else c

/-- The next piece is a line feed that is written as it is. -/
def lineFeedNext : List Piece → Bool
  | .char '\n' :: _ => true
  | _ => false

/-- The value of an attribute from its pieces, and the number of references followed.  `expand`
gives the value of an entity. -/
def attributeValue (expand : Nat → List Char → Option (List Char × Nat)) (entities : Entities)
    (outermost : Bool) (followed : Nat) : List Piece → Option (List Char × Nat)
  | [] => some ([], followed)
  | .char c :: rest => do
    let (value, followed) ← attributeValue expand entities outermost followed rest
    if c = '\r' && lineFeedNext rest then return (value, followed)
    return (plainSpace c :: value, followed)
  | .referred c :: rest => do
    if !outermost && c = '<' then none
    let (value, followed) ← attributeValue expand entities outermost followed rest
    return ((if outermost then c else plainSpace c) :: value, followed)
  | .entity name :: rest => do
    let text ← entities.lookup name
    if !outermost && referenceLimit ≤ followed then none
    let (inner, followed) ← expand (if outermost then followed else followed + 1) text
    let followed := if outermost then 0 else followed
    let (value, followed) ← attributeValue expand entities outermost followed rest
    return (inner ++ value, followed)

/-- The value of an entity inside an attribute, where entities may go `levels` deeper. -/
def expandAttribute (entities : Entities) : Nat → Nat → List Char → Option (List Char × Nat)
  | 0, _, _ => none
  | levels + 1, followed, text => do
    let pieces ← pieces text
    attributeValue (expandAttribute entities levels) entities false followed pieces

/-- The attributes of a start tag with their values expanded. -/
def expandAttributes (entities : Entities) (levels : Nat) (followed : Nat) :
    List RawAttribute → Option (List Attribute × Nat)
  | [] => some ([], followed)
  | a :: as => do
    let pieces ← pieces a.value
    let outermost := levels == depthLimit
    let (value, followed) ←
      attributeValue (expandAttribute entities levels) entities outermost followed pieces
    let (others, followed) ← expandAttributes entities levels followed as
    return (⟨a.name, String.ofList value⟩ :: others, followed)

namespace Builder

/-- Adds a run of characters from its pieces.  `expand` adds the text of an entity. -/
def addPieces (expand : Builder → List Char → Option Builder) (entities : Entities)
    (outermost : Bool) (b : Builder) (buffer : TextBuffer) : List Piece → Option Builder
  | [] => some (b.flush buffer)
  | .char c :: rest => addPieces expand entities outermost b (buffer.add c rest.isEmpty) rest
  | .referred c :: rest =>
    let buffer :=
      if outermost then buffer.addVerbatim c true else buffer.addText c rest.isEmpty
    addPieces expand entities outermost b buffer rest
  | .entity name :: rest => do
    let text ← entities.lookup name
    let b ← (b.flush buffer).follow outermost
    let inner ← expand { b with started := false } text
    let b := { inner with started := b.started }.back outermost
    addPieces expand entities outermost b {} rest

/-- The builder after some events of the content of an element, where `depth` counts the elements
started among them that are still open.  The end tag of the element itself ends the content; what
is behind it is given back. -/
def run (expand : Builder → List Char → Option Builder) (entities : Entities) (levels : Nat)
    (depth : Nat) (b : Builder) : List Event → Option (List Event × Builder)
  | [] => some ([], b)
  | .malformed :: _ => none
  | .aside :: rest => run expand entities levels depth (b.addNode .aside) rest
  | .chars cs :: rest => do
    let pieces ← pieces cs
    let b ← b.addPieces expand entities (levels == depthLimit) {} pieces
    run expand entities levels depth b rest
  | .literal cs :: rest =>
    run expand entities levels depth (b.addText (String.ofList (literalText cs))) rest
  | .start name attributes ending :: rest => do
    let (attributes, followed) ← expandAttributes entities levels b.followed attributes
    let b ← { b with followed }.start name attributes ending
    run expand entities levels (if ending = .content then depth + 1 else depth) b rest
  | .stop name :: rest => do
    let b ← b.stop name
    match depth with
    | 0 => return (rest, b)
    | depth + 1 => run expand entities levels depth b rest

/-- Adds the text of an entity to the content, where entities may go `levels` deeper. -/
def addEntity (entities : Entities) : Nat → Builder → List Char → Option Builder
  | 0, _, _ => none
  | levels + 1, b, text =>
    (run (addEntity entities levels) entities levels 0 b (events text)).map (·.2)

end Builder

end LinearScore.Markup
