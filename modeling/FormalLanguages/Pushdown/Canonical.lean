import FormalLanguages.Pushdown.Basic

/-!
# The canonical form

In canonical form every move either pushes one symbol or pops one, and the only accept state is
entered with an empty stack. A new start pushes the floor. From each old accept state the stack is
drained down to the floor, which is popped on the way into the new accept state.
-/

namespace FormalLanguages.Pushdown

namespace Move

/-- A move pushes one symbol or pops one symbol, and not both. -/
def isCanonical (m : Move) : Bool := m.pop.isSome != m.push.isSome

/-- What is pushed only to be popped again, so that a move can be taken in two steps. -/
def bridge (m : Move) : Option StackSymbol := if m.pop.isSome then none else some .scratch

/-- The two steps by way of a state. -/
def halves (m : Move) (q : State) : List Move :=
  [{ m with target := q, push := m.bridge }, ⟨q, none, m.bridge, m.target, m.push⟩]

end Move

/-- A move that pops and pushes is taken in two steps, and so is one that does neither. -/
def splitMove (m : Move) : Fresh (List Move) :=
  if m.isCanonical then return [m]
  else return m.halves (← fresh)

/-- The moves that lead from the old accept states through `enter` to `drain` and pop everything
there. -/
def drainMoves (p : Pushdown) (drain enter accept : State) : List Move :=
  p.accept.toList.map (fun q => ⟨q, none, none, enter, some .scratch⟩) ++
    ⟨enter, none, some .scratch, drain, none⟩ ::
    p.stack.toList.map (fun name => ⟨drain, none, some (.named name), drain, none⟩) ++
    [⟨drain, none, some .floor, accept, none⟩]

/-- The automaton with the steps of its moves, between a new start and a new accept state. -/
def framed (p : Pushdown) (start drain enter accept : State) (steps : List Move) : Pushdown :=
  let bare := { ofStart start with
    states := p.states.insert start, input := p.input, stack := p.stack }
  ((bare.addMove ⟨start, none, none, p.start, some .floor⟩).addMoves
    (steps ++ p.drainMoves drain enter accept)).addAccept accept

/-- The states of the automaton are not drawn. -/
def reserve (p : Pushdown) : Fresh Unit :=
  match StateSet.greatest? p.states with
  | some q => reservePast q
  | none => pure ()

def canonical (p : Pushdown) : Fresh Pushdown := do
  p.reserve
  let start ← fresh
  let moves ← p.moves.toList.mapM splitMove
  let drain ← fresh
  let enter ← fresh
  let accept ← fresh
  return p.framed start drain enter accept moves.flatten

end FormalLanguages.Pushdown
