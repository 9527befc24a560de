import FormalLanguages.Alphabet
import FormalLanguages.State
import Std.Data.ExtTreeMap

/-!
# Deterministic automata

A deterministic finite automaton. A state may lack a move for a character, and a run that comes
to such a place rejects.
-/

namespace FormalLanguages

open Std

instance : TransCmp (lexOrd.compare : State × Char → State × Char → Ordering) := inferInstance

structure Dfa where
  states : StateSet
  alphabet : Alphabet
  start : State
  moves : ExtTreeMap (State × Char) State lexOrd.compare
  accept : StateSet
deriving DecidableEq

namespace Dfa

def next? (d : Dfa) (q : State) (c : Char) : Option State := d.moves[(q, c)]?

/-- The state reached from `q` along a word, if no move is missing. -/
def run (d : Dfa) (q : State) (w : List Char) : Option State := w.foldlM d.next? q

/-- A word with a character outside the alphabet is rejected. -/
def accepts (d : Dfa) (w : List Char) : Bool :=
  w.all (· ∈ d.alphabet) && (d.run d.start w).any (· ∈ d.accept)

/-- Exchanges the accept states and the others. On a total automaton this complements the
language. -/
def complement (d : Dfa) : Dfa := { d with accept := d.states \ d.accept }

end Dfa

end FormalLanguages
