import FormalLanguages.Automaton.Determinize

/-!
# Operations on automata

Every operation draws the numbers of the states it introduces from a supply. An operation first
moves the supply past the states of its operands, so that new states are new to them, also when
an operand was made elsewhere.
-/

namespace FormalLanguages

open Std

def StateSet.image (f : State → State) (s : StateSet) : StateSet := .ofList (s.toList.map f)

/-- Moves that read nothing from some states to one. -/
def Moves.link (m : Moves) (sources : StateSet) (target : State) : Moves :=
  sources.foldl (fun m q => Moves.extend m (q, none) {target}) m

/-- New numbers for some states, drawn in the order of the list. -/
def renumber : List State → Fresh (ExtTreeMap State State)
  | [] => return ∅
  | q :: qs => do
    let r ← fresh
    return (← renumber qs).insert q r

namespace Nfa

/-- Moves the supply past all states of an automaton. -/
def reserve (n : Nfa) : Fresh Unit :=
  match StateSet.greatest? n.states with
  | some q => reservePast q
  | none => return ()

/-- No word at all. -/
def nothing (alphabet : Alphabet) : Fresh Nfa := do
  let q ← fresh
  return { states := {q}, alphabet, start := q, moves := ∅, accept := ∅ }

/-- Only the empty word. -/
def emptyWord (alphabet : Alphabet) : Fresh Nfa := do
  let q ← fresh
  return { states := {q}, alphabet, start := q, moves := ∅, accept := {q} }

/-- One move from `q` to `r` with the label, whether or not the alphabet has it. -/
def arrow (alphabet : Alphabet) (a : Label) (q r : State) : Nfa where
  states := {q, r}
  alphabet := alphabet
  start := q
  moves := Moves.extend ∅ (q, a) {r}
  accept := {r}

def single (alphabet : Alphabet) (a : Label) : Fresh Nfa := do
  let q ← fresh
  let r ← fresh
  return arrow alphabet a q r

/-- Renames every state. -/
def mapStates (f : State → State) (n : Nfa) : Nfa where
  states := StateSet.image f n.states
  alphabet := n.alphabet
  start := f n.start
  moves := n.moves.foldl (fun m (q, a) rs => Moves.extend m (f q, a) (StateSet.image f rs)) ∅
  accept := StateSet.image f n.accept

def relabel (n : Nfa) : Fresh Nfa := do
  n.reserve
  let number ← renumber n.states.toList
  return n.mapStates fun q => number.getD q q

/-- The second of two automata, relabelled if they share a state. -/
def apart (m n : Nfa) : Fresh Nfa := do
  m.reserve
  n.reserve
  if (m.states ∩ n.states).isEmpty then return n else n.relabel

/-- The moves of both automata. -/
def joinMoves (m n : Nfa) : Moves := n.moves.foldl Moves.extend m.moves

/-- The start state `q` leads to the starts of both. -/
def choice (m n : Nfa) (q : State) : Nfa where
  states := (m.states ∪ n.states).insert q
  alphabet := m.alphabet ∪ n.alphabet
  start := q
  moves := (m.joinMoves n).extend (q, none) {m.start, n.start}
  accept := m.accept ∪ n.accept

/-- The accept states of the first lead to the start of the second. -/
def chain (m n : Nfa) : Nfa where
  states := m.states ∪ n.states
  alphabet := m.alphabet ∪ n.alphabet
  start := m.start
  moves := (m.joinMoves n).link m.accept n.start
  accept := n.accept

/-- The start state `q` accepts, and every accept state leads to the old start. -/
def loop (n : Nfa) (q : State) : Nfa where
  states := n.states.insert q
  alphabet := n.alphabet
  start := q
  moves := (n.moves.extend (q, none) {n.start}).link n.accept n.start
  accept := n.accept.insert q

/-- Every move turned round. -/
def turnedMoves (n : Nfa) : Moves :=
  n.moves.foldl (fun moves (r, a) ss =>
    ss.foldl (fun moves s => Moves.extend moves (s, a) {r}) moves) ∅

/-- Every move is turned round, and the start state `q` leads to the old accept states. -/
def mirror (n : Nfa) (q : State) : Nfa where
  states := n.states.insert q
  alphabet := n.alphabet
  start := q
  moves := n.turnedMoves.extend (q, none) n.accept
  accept := {n.start}

def union (m n : Nfa) : Fresh Nfa := do
  let n ← m.apart n
  let q ← fresh
  return m.choice n q

def concat (m n : Nfa) : Fresh Nfa := do
  let n ← m.apart n
  return m.chain n

def star (n : Nfa) : Fresh Nfa := do
  n.reserve
  let q ← fresh
  return n.loop q

end Nfa

/-- The same automaton, seen as a nondeterministic one. -/
def Dfa.toNfa (d : Dfa) : Nfa where
  states := d.states
  alphabet := d.alphabet
  start := d.start
  moves := d.moves.foldl (fun m (q, c) r => Moves.extend m (q, some c) {r}) ∅
  accept := d.accept

namespace Nfa

def ofDfa (d : Dfa) : Fresh Nfa := do
  let number ← renumber d.states.toList
  return d.toNfa.mapStates fun q => number.getD q q

/-- The words over the alphabet that are not accepted. -/
def complement (n : Nfa) : Fresh Nfa := do
  n.reserve
  ofDfa n.determinize.complement

def intersection (m n : Nfa) : Fresh Nfa := do
  n.reserve
  let m ← m.complement
  let n ← n.complement
  (← m.union n).complement

def difference (m n : Nfa) : Fresh Nfa := do
  n.reserve
  let m ← m.complement
  (← m.union n).complement

def symmetricDifference (m n : Nfa) : Fresh Nfa := do
  let left ← m.difference n
  let right ← n.difference m
  left.union right

/-- The mirror images of the accepted words over the alphabet. -/
def reverse (n : Nfa) : Fresh Nfa := do
  n.reserve
  let m ← ofDfa n.determinize
  let q ← fresh
  return m.mirror q

end Nfa

end FormalLanguages
