import FormalLanguages.Automaton.Dfa
import FormalLanguages.Automaton.Nfa

/-!
# The subset construction

The states of the deterministic automaton are sets of states of the nondeterministic one, each
closed under moves that read nothing. They are numbered in the order of their discovery, where
the set found last is explored first. The empty set is a state like any other, so no move is
missing.
-/

namespace FormalLanguages

open Std

/-- Sets of states are compared as their ascending lists. -/
instance : Ord StateSet := ⟨compareOn ExtTreeSet.toList⟩

instance : TransOrd StateSet := inferInstanceAs (TransCmp (compareOn ExtTreeSet.toList))

instance : LawfulEqOrd StateSet where
  eq_of_compare {s t} h := by
    have h : compare s.toList t.toList = .eq := h
    exact ExtTreeSet.toList_inj.1 (LawfulEqCmp.eq_of_compare h)

namespace Nfa

/-- Where the automaton can be after one more character. -/
def step (n : Nfa) (s : StateSet) (c : Char) : StateSet :=
  n.closure (.ofList (s.toList.flatMap fun q => (n.targets q (some c)).toList))

/-- The sets that some word leads to, in the order of discovery. -/
def subsets (n : Nfa) : List StateSet :=
  (Search.reach (fun s => n.alphabet.toList.map (n.step s)) (Nat.pow 2 (n.targetCount + 1))
    [n.closure {n.start}]).order.reverse

def determinize (n : Nfa) : Dfa :=
  let subsets := n.subsets
  let numbered := subsets.zipIdx
  let number : ExtTreeMap StateSet State := .ofList numbered
  { states := .ofList (List.range subsets.length)
    alphabet := n.alphabet
    start := 0
    moves := .ofList (numbered.flatMap fun (s, i) =>
      n.alphabet.toList.map fun c => ((i, c), number.getD (n.step s c) 0)) _
    accept := .ofList ((numbered.filter fun (s, _) => s.toList.any (· ∈ n.accept)).map (·.2)) }

end Nfa

end FormalLanguages
