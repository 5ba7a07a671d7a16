import LinearScore.Token

/-!
# Measures and items

The token `measure` opens a measure, and the tokens of a measure group into items: a root, the
modifiers that lead to it and the modifiers that trail it.

## Main definitions

* `Item`: a root with its modifiers
* `measureClusters`: a stream cut at the `measure` tokens
* `Item.ofTokens`: the items of one measure
-/

namespace LinearScore

/-- A root with its modifiers on both sides, in the order of the stream. -/
structure Item where
  root : Token
  leading : List Token
  trailing : List Token
  deriving DecidableEq

/-- The tokens of each measure.  Every `measure` token opens a measure, even an empty one; what
stands before the first one is left out and reported once. -/
def measureClusters (tokens : List Token) : Reported (List (List Token)) :=
  match tokens.splitOnP (·.terminal = .measure) with
  | [] => pure []
  | [] :: clusters => pure clusters
  | (first :: others) :: clusters => do
    report first.position (.beforeFirstMeasure (others.length + 1))
    return clusters

namespace Item

/-- Reports each of the leading modifiers that no root follows. -/
def reportDangling : List Token → Reported Unit
  | [] => pure ()
  | token :: tokens => do
    report token.position (.danglingLeading token.terminal)
    reportDangling tokens

/-- The items of the remaining tokens, where `current` is the item whose root came last and
`leading` holds the modifiers that wait for the next root. -/
def ofTokensFrom (current : Option Item) (leading : List Token) :
    List Token → Reported (List Item)
  | [] => do
    reportDangling leading
    return current.toList
  | token :: tokens =>
    match token.terminal.role with
    | .leading => ofTokensFrom current (leading ++ [token]) tokens
    | .trailing =>
      match current with
      | some item =>
        ofTokensFrom (some { item with trailing := item.trailing ++ [token] }) leading tokens
      | none => do
        report token.position (.danglingTrailing token.terminal)
        ofTokensFrom none leading tokens
    | .root => do
      let items ← ofTokensFrom (some ⟨token, leading, []⟩) [] tokens
      return current.toList ++ items
    | .delimiter => do
      report token.position (.unexpectedItem token.terminal)
      ofTokensFrom current leading tokens

/-- The items of the tokens of one measure.  Leading modifiers wait for the next root, trailing
modifiers go to the root before them. -/
def ofTokens (tokens : List Token) : Reported (List Item) := ofTokensFrom none [] tokens

end Item

end LinearScore
