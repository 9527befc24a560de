import FormalLanguages.Alphabet
import FormalLanguages.Search
import FormalLanguages.State
import Std.Data.ExtTreeMap

/-!
# Nondeterministic automata

A nondeterministic finite automaton with moves that read nothing. The moves map a state and a
label to a set of targets; an entry may hold the empty set. Nothing forces the states that the
moves name to be among the states of the automaton, and `WellFormed` says when they are.
-/

namespace FormalLanguages

open Std

/-- Targets by state and label, in the order of states first. -/
abbrev Moves := ExtTreeMap (State × Label) StateSet lexOrd.compare

instance : TransCmp (lexOrd.compare : State × Label → State × Label → Ordering) := inferInstance

/-- Adds targets to those a state has for a label already. -/
def Moves.extend (m : Moves) (key : State × Label) (targets : StateSet) : Moves :=
  m.insert key (m.getD key ∅ ∪ targets)

theorem Moves.getD_extend (m : Moves) (k l : State × Label) (targets : StateSet) :
    (m.extend k targets).getD l ∅ = if k = l then m.getD k ∅ ∪ targets else m.getD l ∅ := by
  simp [Moves.extend, ExtTreeMap.getD_insert]

structure Nfa where
  states : StateSet
  alphabet : Alphabet
  start : State
  moves : Moves
  accept : StateSet
deriving DecidableEq

namespace Nfa

def targets (n : Nfa) (q : State) (a : Label) : StateSet := n.moves.getD (q, a) ∅

/-- Counts the targets of every move, each as often as it occurs. -/
def targetCount (n : Nfa) : Nat :=
  n.moves.foldl (fun count _ rs => count + rs.size) 0

/-- What is reached from some states by moves that read nothing, those states included. -/
def closure (n : Nfa) (qs : StateSet) : StateSet :=
  (Search.reach (fun q => (n.targets q none).toList) (qs.size + n.targetCount) qs.toList).seen

/-- A search for what one state reaches by moves that read nothing: the states found, and those
on a stack, the top first. A state may stand on the stack several times. -/
structure Closing where
  found : StateSet := ∅
  stack : List State

/-- The targets of a state that are not found yet, the greatest first. -/
def unfound (n : Nfa) (found : StateSet) (q : State) : List State :=
  ((n.targets q none).toList.filter (· ∉ found)).reverse

/-- Takes the top of the stack. If it is new, it is found, and its targets that are not found yet
are put on the stack. -/
def closeTop? (n : Nfa) (s : Closing) : Option Closing :=
  match s.stack with
  | [] => none
  | q :: stack =>
    if q ∈ s.found then some { s with stack }
    else
      let found := s.found.insert q
      some { found, stack := n.unfound found q ++ stack }

/-- What is reached from one state by moves that read nothing, that state included. The targets of
a state are put on the stack when it is found and at no other time, which bounds the number of
turns. -/
def epsilonClosure (n : Nfa) (q : State) : StateSet :=
  (exhaust n.closeTop? (n.targetCount + 1) { stack := [q] }).found

/-- `n.Path q w r`: some path from `q` to `r` spells the word `w`. -/
inductive Path (n : Nfa) : State → List Char → State → Prop
  | refl (q) : Path n q [] q
  | silent {q r s w} : r ∈ n.targets q none → Path n r w s → Path n q w s
  | read {q r s c w} : r ∈ n.targets q (some c) → Path n r w s → Path n q (c :: w) s

/-- The words spelled on paths from the start to an accept state, whether or not their
characters are in the alphabet. -/
def Accepts (n : Nfa) (w : List Char) : Prop := ∃ q ∈ n.accept, n.Path n.start w q

/-- Every state named anywhere is a state of the automaton. -/
structure WellFormed (n : Nfa) : Prop where
  start_mem : n.start ∈ n.states
  accept_mem : ∀ q ∈ n.accept, q ∈ n.states
  source_mem : ∀ q a, (q, a) ∈ n.moves → q ∈ n.states
  target_mem : ∀ q a r, r ∈ n.targets q a → r ∈ n.states

end Nfa

end FormalLanguages
