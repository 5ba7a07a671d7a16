import LinearScore.Markup.Character

/-!
# Markup events

A text with markup is a sequence of start tags, end tags, runs of characters and asides.  Nothing
is expanded or matched here, and a text that breaks the rules ends in the event `malformed`.  The
end of the text may cut a start tag short.

## Main definitions

* `Event`, `RawAttribute`, `TagEnd`
* `events`: the events of a text
-/

namespace LinearScore.Markup

/-- An attribute as it is written; references in the value are not expanded. -/
structure RawAttribute where
  name : QualifiedName
  value : List Char
  deriving DecidableEq

/-- How a start tag ends. -/
inductive TagEnd where
  /-- With `>`: the content of the element follows. -/
  | content
  /-- With `/>`: the element is empty. -/
  | empty
  /-- With the text itself, right behind the name or an attribute. -/
  | cut
  deriving DecidableEq

/-- A piece of a text with markup. -/
inductive Event where
  | start (name : QualifiedName) (attributes : List RawAttribute) (ending : TagEnd)
  | stop (name : QualifiedName)
  /-- Characters outside tags; references are not expanded. -/
  | chars (cs : List Char)
  /-- The characters of a section without references. -/
  | literal (cs : List Char)
  /-- A comment or a processing instruction. -/
  | aside
  | malformed
  deriving DecidableEq

/-- The quoted value at the front of a text; it holds no `<`. -/
def takeValue (cs : List Char) : Option (List Char × List Char) := do
  let (quote, rest) ← takeQuote cs
  let (value, rest) := rest.span fun c => c ≠ quote && c ≠ '<'
  if !value.all isAllowed then none
  match rest with
  | c :: rest => if c = quote then some (value, rest) else none
  | [] => none

/-- The attribute at the front of a text. -/
def takeAttribute (cs : List Char) : Option (RawAttribute × List Char) := do
  let (name, rest) ← takeQualified cs
  let rest ← takeEquals rest
  let (value, rest) ← takeValue rest
  return (⟨name, value⟩, rest)

/-- The attributes at the front of a text, up to the end of the tag, and how the tag ends.  Every
attribute has white space before it, and white space has something behind it.  The fuel bounds the
number of attributes. -/
def takeAttributes : Nat → List Char → Option (List RawAttribute × TagEnd × List Char)
  | 0, _ => none
  | _ + 1, [] => some ([], .cut, [])
  | fuel + 1, c :: cs =>
    match skipSpaces (c :: cs) with
    | '/' :: '>' :: rest => some ([], .empty, rest)
    | '>' :: rest => some ([], .content, rest)
    | inner =>
      if isSpace c then do
        let (first, rest) ← takeAttribute inner
        let (others, ending, rest) ← takeAttributes fuel rest
        return (first :: others, ending, rest)
      else none

/-- The start tag behind its `<`. -/
def takeStart (cs : List Char) : Option (Event × List Char) := do
  let (name, rest) ← takeQualified cs
  let (attributes, ending, rest) ← takeAttributes (rest.length + 1) rest
  return (.start name attributes ending, rest)

/-- The end tag behind its `</`. -/
def takeStop (cs : List Char) : Option (Event × List Char) := do
  let (name, rest) ← takeQualified cs
  match skipSpaces rest with
  | '>' :: rest => some (.stop name, rest)
  | _ => none

/-- The comment behind its `<!--`.  Two hyphens end it, so none stand inside, and none before the
end. -/
def takeComment (cs : List Char) : Option (Event × List Char) := do
  let (body, rest) ← breakAt ['-', '-', '>'] cs
  if body.all isAllowed && (breakAt ['-', '-'] body).isNone && body.getLast? ≠ some '-' then
    some (.aside, rest)
  else none

/-- The section behind its `<![CDATA[`. -/
def takeLiteral (cs : List Char) : Option (Event × List Char) := do
  let (body, rest) ← breakAt [']', ']', '>'] cs
  if body.all isAllowed then some (.literal body, rest) else none

/-- The processing instruction behind its `<?`.  A second declaration of the document is none. -/
def takeInstruction (cs : List Char) : Option (Event × List Char) := do
  if ("xml ".toList).isPrefixOf cs then none
  let (_, rest) ← takeName cs
  let (body, rest) ← breakAt ['?', '>'] (skipSpaces rest)
  if body.all isAllowed then some (.aside, rest) else none

/-- The run of characters at the front of a text; it does not hold the end of a section. -/
def takeChars (cs : List Char) : Option (Event × List Char) :=
  let (body, rest) := cs.span (· ≠ '<')
  if body.all isAllowed && (breakAt [']', ']', '>'] body).isNone then some (.chars body, rest)
  else none

/-- The event at the front of a text that is not empty. -/
def takeEvent (cs : List Char) : Option (Event × List Char) :=
  match cs with
  | '<' :: '!' :: rest =>
    match after? ['-', '-'] rest with
    | some rest => takeComment rest
    | none => (after? "[CDATA[".toList rest).bind takeLiteral
  | '<' :: '?' :: rest => takeInstruction rest
  | '<' :: '/' :: rest => takeStop rest
  | '<' :: rest => takeStart rest
  | cs => takeChars cs

/-- The events of a text, up to the first place where it is malformed.  Each event takes at least
one character, so the length of the text is fuel enough. -/
def eventsWithin : Nat → List Char → List Event
  | 0, _ => []
  | _, [] => []
  | fuel + 1, c :: cs =>
    match takeEvent (c :: cs) with
    | some (event, rest) => event :: eventsWithin fuel rest
    | none => [.malformed]

/-- The events of a text. -/
def events (cs : List Char) : List Event := eventsWithin cs.length cs

end LinearScore.Markup
