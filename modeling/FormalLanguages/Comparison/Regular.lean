import FormalLanguages.Automaton.Shortest
import FormalLanguages.Automaton.Thompson

/-!
# Comparing regular languages

Two regular languages differ exactly when one of their two differences holds a word. Each
difference is made as an automaton, and its shortest word is the witness.
-/

namespace FormalLanguages

/-- The shortest accepted word, found on the deterministic automaton. -/
def Nfa.shortest? (n : Nfa) : Option (List Char) := n.determinize.shortest?

/-- Words that tell two languages apart: one only in the first, one only in the second. -/
structure Witnesses where
  left : Option (List Char)
  right : Option (List Char)
deriving DecidableEq, Repr

def Nfa.witnesses (m n : Nfa) : Fresh Witnesses := do
  let onlyLeft ← m.difference n
  let onlyRight ← n.difference m
  return { left := onlyLeft.shortest?, right := onlyRight.shortest? }

def Regex.witnesses (alphabet : Alphabet) (r s : List Char) : Except Error Witnesses :=
  Supply.run {} do
    let m ← Nfa.ofText alphabet r
    let n ← Nfa.ofText alphabet s
    m.witnesses n

end FormalLanguages
