import FormalLanguages.Grammar.Inline
import FormalLanguages.Grammar.Rename
import FormalLanguages.Pushdown.Canonical

/-!
# The grammar of a pushdown automaton

For two states of an automaton in canonical form there is a variable, which derives what the
automaton reads on its way from the first to the second if the stack ends as it was and never
gets lower. Such a way is empty, or it is made of two ways with a state between them, or it begins
with a push that is undone by a pop at its end.
-/

namespace FormalLanguages.Pushdown

open Std

/-- The variable for the ways from `q` to `r`. -/
def wayVariable (q r : State) : String := "A" ++ toString q ++ "_" ++ toString r

/-- A rule of the grammar with its variable. -/
abbrev WayRule := String × Rule

/-- The way begins with a push and ends with a pop of the same symbol. -/
def enclosingRule (push pop : Move) : WayRule :=
  (wayVariable push.source pop.target,
    push.read.toList ++ wayVariable push.target pop.source :: pop.read.toList)

instance : TransCmp
    (lexOrd.compare : State × Option StackSymbol → State × Option StackSymbol → Ordering) :=
  inferInstance

/-- The rules for all pushes and the pops that undo them, in the order of the states and symbols
that the pushes lead to. -/
def enclosingRules (pushes pops : List Move) : List WayRule :=
  let landings : ExtTreeSet (State × Option StackSymbol) lexOrd.compare :=
    .ofList (pushes.map fun m => (m.target, m.push)) _
  landings.toList.flatMap fun (r, u) =>
    (pops.filter fun m => m.pop = u).flatMap fun pop =>
      (pushes.filter fun m => m.target = r ∧ m.push = u).map fun push => enclosingRule push pop

def splittingRules (states : List State) : List WayRule :=
  states.flatMap fun p => states.flatMap fun q => states.map fun r =>
    (wayVariable p q, [wayVariable p r, wayVariable r q])

def emptyRules (states : List State) : List WayRule :=
  states.map fun p => (wayVariable p p, Rule.epsilon)

/-- All rules for the ways of an automaton in canonical form. -/
def wayRules (p : Pushdown) : List WayRule :=
  let states := p.states.toList
  let pushes := p.moves.toList.filter (·.push.isSome)
  let pops := p.moves.toList.filter (·.pop.isSome)
  enclosingRules pushes pops ++ splittingRules states ++ emptyRules states

/-- The grammar of an automaton in canonical form, before it is simplified. -/
def wayGrammar (p : Pushdown) : Except Error Grammar :=
  match p.accept.toList with
  | [accept] =>
    match p.moves.toList.find? fun m => !m.isCanonical with
    | some m => .error (.internal ("transition " ++ toString m.source ++ " -> " ++
        toString m.target ++ " is neither a push nor a pop"))
    | none => .ok ((Grammar.empty p.input (wayVariable p.start accept)).addRules p.wayRules)
  | _ => .error (.internal "canonical PDA must have one accept state")

/-- A small grammar with short names for the language of the automaton. -/
def toGrammar (p : Pushdown) : Except Error Grammar := do
  let g ← wayGrammar (← Supply.run {} p.canonical)
  return g.simplify.collapseTrivialStar.eliminateNonSelfRecursive.trim.rename

end FormalLanguages.Pushdown
