import FormalLanguages.Automaton.Nfa
import FormalLanguages.LineFormat.Lists

/-!
# Automata as text

A nondeterministic automaton is written as its alphabet, its start state, its accept states and a
line for each edge: source, target and labels separated by commas. Its states are those that are
mentioned.
-/

namespace FormalLanguages.LineFormat

open Text

/-- One line of the edges. -/
structure EdgeLine where
  source : State
  target : State
  labels : List Label

/-- One of the labels on an edge, which may stand for the empty word. -/
def readLabel? : List Char → Option Label
  | [c] => some (Label.ofChar c)
  | _ => none

def readEdge? (line : List Char) : Option EdgeLine := do
  let [source, target, labels] := fields line | none
  let source ← readNumeral? State.last source
  let target ← readNumeral? State.last target
  let labels ← (items labels).mapM readLabel?
  if labels = [] then none else some { source, target, labels }

def readEdges (text : List Char) : Except Error (List EdgeLine) :=
  (contentLines text).mapM fun line =>
    match readEdge? line with
    | some e => .ok e
    | none => .error (.malformedEdge (.ofList line))

def EdgeLine.addTo (m : Moves) (e : EdgeLine) : Moves :=
  e.labels.foldl (fun m a => m.extend (e.source, a) {e.target}) m

def readNfa (alphabet start accept edges : List Char) : Except Error Nfa := do
  let alphabet ← readAlphabet alphabet
  let start ← readState start
  let accept ← (items accept).mapM readState
  let edges ← readEdges edges
  return {
    states := .ofList (start :: accept ++ edges.flatMap fun e => [e.source, e.target])
    alphabet, start
    moves := edges.foldl EdgeLine.addTo ∅
    accept := .ofList accept }

/-- One line for each move. -/
def printEdges (m : Moves) : List Char :=
  m.toList.flatMap fun ((q, a), rs) => rs.toList.flatMap fun r =>
    numeral q ++ ' ' :: numeral r ++ [' ', a.toChar, '\n']

/-- The start state, the accept states and the edges, on lines of their own. -/
def printNfa (n : Nfa) : List Char :=
  "start: ".toList ++ numeral n.start ++ "\naccept: ".toList ++
    List.intercalate [','] (n.accept.toList.map numeral) ++ '\n' :: printEdges n.moves

end FormalLanguages.LineFormat
