import LinearScore.Diagnostic.Reported
import LinearScore.Terminal.Reading
import LinearScore.Text.Blank

/-!
# Tokens

A token is a terminal together with its position in a stream, counted from one.  Texts that spell
no terminal are left out and reported; positions keep counting across them.

## Main definitions

* `Token`
* `Token.ofTexts`: the tokens of a list of texts
* `Token.ofText`: the tokens of a text, split at white space
-/

namespace LinearScore

/-- A terminal at a position of a stream. -/
structure Token where
  terminal : Terminal
  position : Nat
  deriving DecidableEq

namespace Token

/-- The token of one text, if the text spells a terminal. -/
def ofEntry? (entry : String × Nat) : Option Token :=
  (Terminal.ofText? entry.1).map fun terminal => ⟨terminal, entry.2⟩

/-- The diagnostic for one text, if the text spells no terminal. -/
def unknown? (entry : String × Nat) : Option Diagnostic :=
  if (Terminal.ofText? entry.1).isSome then none
  else some (.atToken entry.2 (.unknown entry.1))

/-- The tokens of the texts that spell terminals; the other texts are reported. -/
def ofTexts (texts : List String) : Reported (List Token) :=
  { value := (texts.zipIdx 1).filterMap ofEntry?
    diagnostics := (texts.zipIdx 1).filterMap unknown? }

/-- The tokens of a text, split at white space. -/
def ofText (text : String) : Reported (List Token) := ofTexts (Text.words text)

end Token

end LinearScore
