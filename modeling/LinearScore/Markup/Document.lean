import LinearScore.Markup.Builder

/-!
# Documents

A document is a declaration, a document type and a root element, the first two of which may be
missing, with comments, processing instructions and white space around them.  Of a document type
only the entities with a text of their own are kept.

## Main definitions

* `readTree`: the root element of a document
-/

namespace LinearScore.Markup

/-- What follows comments, processing instructions and white space. -/
def skipAsides : Nat → List Char → Option (List Char)
  | 0, _ => none
  | fuel + 1, cs =>
    let cs := skipSpaces cs
    if "<!--".toList.isPrefixOf cs || "<?".toList.isPrefixOf cs then do
      let (_, rest) ← takeEvent cs
      skipAsides fuel rest
    else some cs

/-- What follows the white space behind an attribute of the declaration. -/
def skipDeclarationSpaces (cs : List Char) : Option (List Char) :=
  match cs with
  | [] => some []
  | c :: _ =>
    if isSpace c then some (skipSpaces cs)
    else if "?>".toList.isPrefixOf cs then some cs
    else none

/-- What follows an attribute of the declaration that may be missing. -/
def skipDeclared (name : String) (cs : List Char) : Option (List Char) :=
  if name.toList.isPrefixOf cs then do
    let (_, rest) ← takeAttribute cs
    skipDeclarationSpaces rest
  else some cs

/-- What follows the declaration at the front of a document, if there is one.  It states a version,
and may state an encoding and whether the document stands alone. -/
def skipDeclaration (cs : List Char) : Option (List Char) :=
  match after? "<?xml ".toList cs with
  | none => some cs
  | some rest => do
    let rest := skipSpaces rest
    if !("version".toList.isPrefixOf rest) then none
    let rest ← skipDeclared "version" rest
    let rest ← skipDeclared "encoding" rest
    let rest ← if "standalone".toList.isPrefixOf rest then (takeAttribute rest).map (·.2)
      else some rest
    after? "?>".toList (skipSpaces rest)

/-- A text between quotation marks and what follows it. -/
def takeQuoted (cs : List Char) : Option (List Char × List Char) := do
  let (quote, rest) ← takeQuote cs
  match rest.span (· ≠ quote) with
  | (value, _ :: rest) => some (value, rest)
  | _ => none

/-- What follows the reference to an outer resource at the front of a text, if there is one. -/
def skipExternal (cs : List Char) : Option (Option (List Char)) :=
  match after? "SYSTEM".toList cs, after? "PUBLIC".toList cs with
  | some rest, _ => do
    let (_, rest) ← takeQuoted (← requireSpaces rest)
    return some rest
  | _, some rest => do
    let (_, rest) ← takeQuoted (← requireSpaces rest)
    let (_, rest) ← takeQuoted (← requireSpaces rest)
    return some rest
  | none, none => some none

/-- What follows the note on the format of an outer entity, if there is one. -/
def skipFormat (cs : List Char) : Option (List Char) :=
  match after? "NDATA".toList (skipSpaces cs) with
  | some rest => do
    let (_, rest) ← takeName (← requireSpaces rest)
    return rest
  | none => some (skipSpaces cs)

/-- The text of an entity as its declaration defines it, and what follows.  An outer entity has no
text. -/
def takeDefinition (general : Bool) (cs : List Char) :
    Option (Option (List Char) × List Char) :=
  match takeQuoted cs with
  | some (value, rest) => some (some value, rest)
  | none =>
    match skipExternal cs with
    | some (some rest) => (if general then skipFormat rest else some rest).map (none, ·)
    | _ => none

/-- The entity declared behind `<!ENTITY`, if it has a text of its own, and what follows. -/
def takeEntity (cs : List Char) : Option (Entities × List Char) := do
  let rest ← requireSpaces cs
  let (general, rest) ← match rest with
    | '%' :: rest => (requireSpaces rest).map (false, ·)
    | rest => some (true, rest)
  let (name, rest) ← takeName rest
  let rest ← requireSpaces rest
  let (text, rest) ← takeDefinition general rest
  match skipSpaces rest with
  | '>' :: rest => some (text.toList.map (String.ofList name, ·), rest)
  | _ => none

/-- What follows the next `>`. -/
def skipDeclarationEnd (cs : List Char) : Option (List Char) :=
  match cs.dropWhile (· ≠ '>') with
  | _ :: rest => some rest
  | [] => none

/-- The text is a declaration without meaning for the tree. -/
def isOtherDeclaration (cs : List Char) : Bool :=
  "<!ELEMENT".toList.isPrefixOf cs || "<!ATTLIST".toList.isPrefixOf cs ||
  "<!NOTATION".toList.isPrefixOf cs

/-- The entities declared inside the brackets of a document type, and what follows it. -/
def takeDeclarations : Nat → Entities → List Char → Option (Entities × List Char)
  | 0, _, _ => none
  | fuel + 1, entities, cs =>
    let cs := skipSpaces cs
    match after? "<!ENTITY".toList cs, cs with
    | some rest, _ => do
      let (declared, rest) ← takeEntity rest
      takeDeclarations fuel (entities ++ declared) rest
    | none, ']' :: rest =>
      match skipSpaces rest with
      | '>' :: rest => some (entities, rest)
      | _ => none
    | none, cs =>
      if "<!--".toList.isPrefixOf cs || "<?".toList.isPrefixOf cs then do
        let (_, rest) ← takeEvent cs
        takeDeclarations fuel entities rest
      else if isOtherDeclaration cs then do
        takeDeclarations fuel entities (← skipDeclarationEnd cs)
      else none

/-- The entities declared by a document type behind its `<!DOCTYPE`, and what follows it. -/
def takeDocumentType (cs : List Char) : Option (Entities × List Char) := do
  let (_, rest) ← takeName (← requireSpaces cs)
  let rest := skipSpaces rest
  let rest := (← skipExternal rest).getD rest
  match skipSpaces rest with
  | '>' :: rest => some ([], rest)
  | '[' :: rest => takeDeclarations (rest.length + 1) [] rest
  | _ => none

/-- The events around the root: asides and white space. -/
def onlyAsides (rest : List Event) : Bool :=
  rest.all fun
    | .aside => true
    | .chars cs => cs.all isSpace
    | _ => false

/-- The root element among the events of a document behind its document type. -/
def rootTree (entities : Entities) (cs : List Char) : Option Tree := do
  match events cs with
  | .start name attributes ending :: rest =>
    let (attributes, _) ← expandAttributes entities depthLimit 0 attributes
    let b ← ({} : Builder).start name attributes ending
    let (rest, b) ←
      if ending = .content then
        b.run (Builder.addEntity entities depthLimit) entities depthLimit 0 rest
      else some (rest, b)
    if !onlyAsides rest || !b.openElements.isEmpty then none
    b.root
  | _ => none

/-- The root element of a document.  A byte order mark in front is skipped.  The document type may
be refused. -/
def readTree (allowType : Bool) (text : String) : Option Tree := do
  let cs := match text.toList with
    | '\uFEFF' :: cs => cs
    | cs => cs
  let cs ← skipDeclaration cs
  let cs ← skipAsides (cs.length + 1) cs
  match after? "<!DOCTYPE".toList cs with
  | some rest =>
    if !allowType then none
    let (entities, rest) ← takeDocumentType rest
    let rest ← skipAsides (rest.length + 1) rest
    rootTree entities rest
  | none => rootTree [] cs

end LinearScore.Markup
