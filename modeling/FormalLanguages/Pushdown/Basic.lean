import FormalLanguages.State
import Std.Data.ExtTreeMap

/-!
# Pushdown automata

A move reads a token or nothing, pops a symbol or nothing, and pushes a symbol or nothing. The
alphabets hold what the moves mention. Besides the named stack symbols there are two that serve
the canonical form.
-/

namespace FormalLanguages

open Std

inductive StackSymbol where
  /-- Lies under everything else. -/
  | floor
  /-- Is pushed only to be popped again. -/
  | scratch
  | named (name : String)
deriving DecidableEq, Repr

namespace StackSymbol

/-- Orders the stack symbols: the two without a name come first. -/
def key : StackSymbol → Option (Option String)
  | floor => none
  | scratch => some none
  | named name => some (some name)

theorem key_injective {a b : StackSymbol} (h : a.key = b.key) : a = b := by
  cases a <;> cases b <;> simp_all [key]

instance : Ord StackSymbol := ⟨compareOn key⟩

instance : TransOrd StackSymbol := inferInstanceAs (TransCmp (compareOn key))

instance : LawfulEqOrd StackSymbol where
  eq_of_compare {a b} h := by
    have h : compare a.key b.key = .eq := h
    exact key_injective (LawfulEqCmp.eq_of_compare h)

def name? : StackSymbol → Option String
  | named name => some name
  | _ => none

def text : StackSymbol → String
  | floor => "⊤"
  | scratch => "⊥"
  | named name => name

end StackSymbol

namespace Pushdown

structure Move where
  source : State
  read : Option String
  pop : Option StackSymbol
  target : State
  push : Option StackSymbol
deriving DecidableEq, Repr

namespace Move

/-- Moves are ordered by what they need and then by what they do. -/
protected def compare : Move → Move → Ordering :=
  compareLex (compareOn source) (compareLex (compareOn read) (compareLex (compareOn pop)
    (compareLex (compareOn target) (compareOn push))))

instance : Ord Move := ⟨Move.compare⟩

instance : TransOrd Move := inferInstanceAs (TransCmp (compareLex (compareOn source)
  (compareLex (compareOn read) (compareLex (compareOn pop)
    (compareLex (compareOn target) (compareOn push))))))

instance : LawfulEqOrd Move where
  eq_of_compare {a b} h := by
    have h : Move.compare a b = .eq := h
    simp only [Move.compare, compareLex_eq_eq, compareOn, LawfulEqOrd.compare_eq_iff_eq] at h
    cases a; cases b
    simp_all

end Move

end Pushdown

structure Pushdown where
  states : StateSet
  input : ExtTreeSet String
  stack : ExtTreeSet String
  start : State
  moves : ExtTreeSet Pushdown.Move
  accept : StateSet
deriving DecidableEq

namespace Pushdown

def ofStart (q : State) : Pushdown :=
  { states := {q}, input := ∅, stack := ∅, start := q, moves := ∅, accept := ∅ }

/-- Adds a move, with its states and symbols. -/
def addMove (p : Pushdown) (m : Move) : Pushdown :=
  { p with
    states := (p.states.insert m.source).insert m.target
    input := p.input.insertMany m.read.toList
    stack := p.stack.insertMany ([m.pop, m.push].filterMap fun s => s.bind StackSymbol.name?)
    moves := p.moves.insert m }

section AddMove

variable {p : Pushdown} {m m' : Move} {q : State} {t name : String}

@[simp] theorem mem_moves_addMove : m' ∈ (p.addMove m).moves ↔ m' = m ∨ m' ∈ p.moves := by
  rw [addMove, ExtTreeSet.mem_insert, LawfulEqCmp.compare_eq_iff_eq, eq_comm]

@[simp] theorem mem_states_addMove :
    q ∈ (p.addMove m).states ↔ q = m.source ∨ q = m.target ∨ q ∈ p.states := by
  simp only [addMove, ExtTreeSet.mem_insert, LawfulEqCmp.compare_eq_iff_eq]
  grind

@[simp] theorem mem_input_addMove : t ∈ (p.addMove m).input ↔ m.read = some t ∨ t ∈ p.input := by
  simp [addMove, or_comm]

theorem name?_eq_some_iff {s : StackSymbol} : s.name? = some name ↔ s = .named name := by
  cases s <;> simp [StackSymbol.name?]

@[simp] theorem mem_stack_addMove : name ∈ (p.addMove m).stack ↔
    m.pop = some (.named name) ∨ m.push = some (.named name) ∨ name ∈ p.stack := by
  simp only [addMove, ExtTreeSet.mem_insertMany_list, List.contains_eq_mem, List.mem_filterMap,
    Option.bind_eq_some_iff, name?_eq_some_iff, decide_eq_true_eq]
  grind

end AddMove

def addMoves (p : Pushdown) (ms : List Move) : Pushdown := ms.foldl addMove p

section AddMoves

variable {p : Pushdown} {ms : List Move} {m : Move} {q : State} {t : String}

@[simp] theorem mem_moves_addMoves : m ∈ (p.addMoves ms).moves ↔ m ∈ ms ∨ m ∈ p.moves := by
  unfold addMoves
  induction ms generalizing p with
  | nil => simp
  | cons m' ms ih => simp [ih, or_assoc, or_left_comm]

@[simp] theorem mem_states_addMoves : q ∈ (p.addMoves ms).states ↔
    (∃ m ∈ ms, q = m.source ∨ q = m.target) ∨ q ∈ p.states := by
  unfold addMoves
  induction ms generalizing p with
  | nil => simp
  | cons m ms ih => simp [ih, or_assoc, or_left_comm]

@[simp] theorem mem_input_addMoves :
    t ∈ (p.addMoves ms).input ↔ (∃ m ∈ ms, m.read = some t) ∨ t ∈ p.input := by
  unfold addMoves
  induction ms generalizing p with
  | nil => simp
  | cons m ms ih => simp [ih, or_assoc, or_left_comm]

@[simp] theorem start_addMoves : (p.addMoves ms).start = p.start := by
  unfold addMoves
  induction ms generalizing p with
  | nil => rfl
  | cons m ms ih => exact ih

@[simp] theorem accept_addMoves : (p.addMoves ms).accept = p.accept := by
  unfold addMoves
  induction ms generalizing p with
  | nil => rfl
  | cons m ms ih => exact ih

end AddMoves

def addAccept (p : Pushdown) (q : State) : Pushdown :=
  { p with states := p.states.insert q, accept := p.accept.insert q }

@[simp] theorem moves_addAccept (p : Pushdown) (q : State) : (p.addAccept q).moves = p.moves := rfl

/-- `p.Run q s w r t`: from state `q` with stack `s` some moves read `w` and lead to state `r`
with stack `t`. The top of a stack comes first. -/
inductive Run (p : Pushdown) :
    State → List StackSymbol → List String → State → List StackSymbol → Prop
  | refl (q s) : Run p q s [] q s
  | step {m s w r t} : m ∈ p.moves → Run p m.target (m.push.toList ++ s) w r t →
    Run p m.source (m.pop.toList ++ s) (m.read.toList ++ w) r t

/-- A run from the start with an empty stack ends in an accept state; what is left on the stack
does not matter. -/
def Accepts (p : Pushdown) (w : List String) : Prop :=
  ∃ q ∈ p.accept, ∃ s, p.Run p.start [] w q s

end Pushdown

end FormalLanguages
