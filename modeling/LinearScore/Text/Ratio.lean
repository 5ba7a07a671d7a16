import LinearScore.Text.Numeral

/-!
# Exact fractions as text

A fraction is written `n` when it is whole and `n/d` in lowest terms otherwise.  Reading takes any
two integer literals around the bar, or one alone, and refuses a zero denominator.
-/

namespace LinearScore.Text

/-- `n` for a whole number, else `n/d` in lowest terms with a positive denominator. -/
def ratio (q : Rat) : String :=
  if q.den = 1 then toString q.num else toString q.num ++ "/" ++ toString q.den

/-- The value of `n` or `n/d`; a zero denominator is refused. -/
def readRatio (s : String) : Option Rat :=
  let (before, rest) := s.toList.span (· != '/')
  match rest with
  | [] => (readLong s).map fun n => (n : Rat)
  | _ :: after => do
    let n ← readLong (String.ofList before)
    let d ← readLong (String.ofList after)
    if d = 0 then none else some ((n : Rat) / (d : Rat))

end LinearScore.Text
