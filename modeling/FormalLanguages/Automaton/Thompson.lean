import FormalLanguages.Automaton.Algebra
import FormalLanguages.Regex.Parser

/-!
# Automata of regular expressions

The automaton of a regular expression is put together from the automata of its parts. The alphabet
is given and is not made to contain the characters of the expression.
-/

namespace FormalLanguages.Nfa

/-- `r+` is `r` followed by `r*`, and so the automaton of `r` is built twice. -/
def ofRegex (alphabet : Alphabet) : Regex → Fresh Nfa
  | .literal a => single alphabet a
  | .concat r s => do
    let m ← ofRegex alphabet r
    m.concat (← ofRegex alphabet s)
  | .union r s => do
    let m ← ofRegex alphabet r
    m.union (← ofRegex alphabet s)
  | .option r => do
    let m ← ofRegex alphabet r
    m.union (← single alphabet none)
  | .star r => do (← ofRegex alphabet r).star
  | .plus r => do
    let once ← ofRegex alphabet r
    let more ← (← ofRegex alphabet r).star
    once.concat more
  | .group r => ofRegex alphabet r

/-- A text without any token stands for the empty word. -/
def ofText (alphabet : Alphabet) (text : List Char) : Fresh Nfa := do
  match ← Regex.parse text with
  | some r => ofRegex alphabet r
  | none => emptyWord alphabet

end FormalLanguages.Nfa
