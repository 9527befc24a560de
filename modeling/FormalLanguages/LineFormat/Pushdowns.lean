import FormalLanguages.Alphabet
import FormalLanguages.Pushdown.Basic
import FormalLanguages.Text.Blank

/-!
# Pushdown automata as text

A pushdown automaton is written as its start state, its accept states and a line for each move,
such as `p q a, x -> y`: from `p` to `q`, reading `a`, popping `x` and pushing `y`. States have
any names, and are numbered in the order in which they are first mentioned.
-/

namespace FormalLanguages.LineFormat

open Text

/-- One line of the moves, with the names of its states. -/
structure MoveLine where
  source : List Char
  target : List Char
  read : Option String
  pop : Option String
  push : Option String

/-- A symbol, or nothing if it is written as the empty word. -/
def readOptional (s : List Char) : Option String :=
  let s := normalizeEpsilon (trim s)
  if s = [epsilon] then none else some (.ofList s)

def readMove? (line : List Char) : Option MoveLine := do
  let source :: target :: label := fields line | none
  let (before, push) ← cut ['-', '>'] (List.intercalate [' '] label)
  let (read, pop) ← cut [','] before
  if [read, pop, push].any fun s => trim s = [] then none
  else some {
    source, target, read := readOptional read, pop := readOptional pop, push := readOptional push }

/-- The move of a line, once its states have numbers. -/
def MoveLine.toMove (m : MoveLine) (source target : State) : Pushdown.Move :=
  ⟨source, m.read, m.pop.map .named, target, m.push.map .named⟩

/-- The numbers of the names met so far. -/
abbrev Names := Std.ExtTreeMap (List Char) State

/-- A computation that gives numbers to names. -/
abbrev Naming := StateT Names Fresh

/-- A name met before has its number already; any other takes the next one. -/
def number (name : List Char) : Naming State := fun names => do
  match names[name]? with
  | some q => return (q, names)
  | none =>
    let q ← fresh
    return (q, names.insert name q)

def addAcceptNamed (p : Pushdown) (name : List Char) : Naming Pushdown :=
  return p.addAccept (← number name)

def addMoveLine (p : Pushdown) (m : MoveLine) : Naming Pushdown :=
  return p.addMove (m.toMove (← number m.source) (← number m.target))

/-- The states of a line are met only when all of the line can be read. -/
def addLine (p : Pushdown) (line : List Char) : Naming Pushdown :=
  match readMove? line with
  | some m => addMoveLine p m
  | none => throw (.malformedEdge (.ofList line))

def namedPushdown (start : List Char) (accept lines : List (List Char)) : Naming Pushdown := do
  let p ← accept.foldlM addAcceptNamed (Pushdown.ofStart (← number start))
  lines.foldlM addLine p

def readPushdown (start accept moves : List Char) : Except Error Pushdown := do
  let start := trim start
  if start = [] then throw (.malformedStateList "")
  Supply.run {} ((namedPushdown start (items accept) (contentLines moves)).run' ∅)

end FormalLanguages.LineFormat
