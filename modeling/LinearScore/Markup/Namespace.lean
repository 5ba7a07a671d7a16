import LinearScore.Markup.Event

/-!
# Namespaces

Attributes named `xmlns` bind prefixes to namespaces for an element and its content.  A prefix has
to be bound, and no element has two attributes of one name in one namespace.

## Main definitions

* `Scope`: the bindings in force
* `SortedAttributes`: attributes sorted into bindings and others
* `SortedAttributes.resolve`: the scope that they make, and the attributes without a prefix
-/

namespace LinearScore.Markup

/-- The namespace of the prefix `xml`, which needs no binding. -/
def xmlSpace : String := "http://www.w3.org/XML/1998/namespace"

/-- The namespace of the bindings themselves, which cannot be bound. -/
def bindingSpace : String := "http://www.w3.org/2000/xmlns/"

/-- The bindings of prefixes in force, the innermost first.  The empty prefix is the default. -/
abbrev Scope := List (String × String)

/-- An attribute with its value expanded. -/
structure Attribute where
  name : QualifiedName
  value : String
  deriving DecidableEq

/-- The binding that an attribute makes, if it makes one.  It is refused when it is reserved or
repeats a prefix bound by the same element. -/
inductive Binding where
  | none
  | refused
  /-- A binding that is in force anyway. -/
  | given
  | bind (space uri : String)

/-- What an attribute binds, after the bindings that the same element made before it. -/
def Attribute.binding (a : Attribute) (own : Scope) : Binding :=
  if a.name.space = "xmlns" then
    if a.value = bindingSpace then .refused
    else if a.name.name = "xml" then if a.value = xmlSpace then .given else .refused
    else if a.value = xmlSpace then .refused
    else if own.any (·.1 = a.name.name) then .refused
    else .bind a.name.name a.value
  else if a.name.name = "xmlns" then
    if a.value = xmlSpace || a.value = bindingSpace then .refused else .bind "" a.value
  else .none

/-- Attributes sorted into the bindings that they make and the others, both in order. -/
structure SortedAttributes where
  own : Scope := []
  plain : List Attribute := []

/-- Attributes with more behind them. -/
def SortedAttributes.add (s : SortedAttributes) : List Attribute → Option SortedAttributes
  | [] => some s
  | a :: as =>
    match a.binding s.own with
    | .none => { s with plain := s.plain ++ [a] }.add as
    | .refused => none
    | .given => s.add as
    | .bind space uri => { s with own := s.own ++ [(space, uri)] }.add as

/-- The namespace of an attribute: none without a prefix. -/
def Scope.spaceOf? (scope : Scope) (name : QualifiedName) : Option (Option String) :=
  if name.space = "" then some none
  else if name.space = "xml" then some (some xmlSpace)
  else (scope.lookup name.space).map some

/-- Each attribute is in a bound namespace, and no two have one name in one namespace. -/
def Scope.accepts (scope : Scope) (seen : List (Option String × String)) :
    List Attribute → Bool
  | [] => true
  | a :: as =>
    match scope.spaceOf? a.name with
    | none => false
    | some space =>
      !seen.contains (space, a.name.name) && scope.accepts ((space, a.name.name) :: seen) as

/-- The scope that attributes make inside an outer one, and those of them without a prefix. -/
def SortedAttributes.resolve (s : SortedAttributes) (outer : Scope) :
    Option (Scope × List (String × String)) :=
  let scope := s.own ++ outer
  if scope.accepts [] s.plain then
    some (scope, (s.plain.filter (·.name.space = "")).map fun a => (a.name.name, a.value))
  else none

/-- The name of an element is without a prefix, or its prefix is bound. -/
def Scope.binds (scope : Scope) (name : QualifiedName) : Bool :=
  name.space = "" || (scope.lookup name.space).isSome

end LinearScore.Markup
