import FormalLanguages.Error
import FormalLanguages.Grammar.Basic
import FormalLanguages.Text.Blank

/-!
# Grammars as text

A grammar is written one variable a line, with its rules after an arrow, separated by `|`. The
symbols of a rule are separated by blanks. The variable of the first line is the start.
-/

namespace FormalLanguages.Grammar

open Std
open Text (contentLines cut fields isBlank lines split)

def arrow : List Char := ['-', '>']

/-- A line of a grammar: a variable and some of its rules. -/
structure Production where
  head : String
  rules : List Rule

def readSymbol (s : List Char) : String := .ofList (normalizeEpsilon s)

/-- The symbols of one alternative; there has to be one. -/
def readRule? (s : List Char) : Option Rule :=
  match (fields s).map readSymbol with
  | [] => none
  | r => some r

/-- The head is one name, which is no terminal and not the empty word. Without any text after
the arrow there are no rules. -/
def readProduction? (terminals : ExtTreeSet String) (line : List Char) : Option Production := do
  let (head, body) ← cut arrow line
  let head := Text.trim head
  if head = [] || head.any isBlank || .ofList head ∈ terminals || normalizeEpsilon head = [epsilon]
  then none
  else if Text.trim body = [] then some { head := .ofList head, rules := [] }
  else return { head := .ofList head, rules := ← (split (· == '|') body).mapM readRule? }

def readProductions (terminals : ExtTreeSet String) (text : List Char) :
    Except Error (List Production) :=
  (contentLines text).mapM fun line =>
    match readProduction? terminals line with
    | some p => .ok p
    | none => .error (.malformedProduction (.ofList line))

def addProduction (g : Grammar) (p : Production) : Grammar :=
  p.rules.foldl (fun g r => g.addRule p.head r) (g.addVariable p.head)

/-- Reads a grammar over given terminals; all other symbols are variables. -/
def parse (terminals : ExtTreeSet String) (text : List Char) : Except Error Grammar := do
  match ← readProductions terminals text with
  | [] => .error (.malformedProduction (.ofList text))
  | p :: ps => return (p :: ps).foldl addProduction (empty terminals p.head)

/-- The symbols that stand on the right of an arrow and never on the left of one. -/
def inferredTerminals (text : List Char) : ExtTreeSet String :=
  let sides := (lines text).filterMap (cut arrow)
  let heads := sides.map fun (head, _) => String.ofList (Text.trim head)
  let symbols := sides.flatMap fun (_, body) =>
    ((split (fun c => c == '|' || isBlank c) body).filter (· ≠ [])).map readSymbol
  .ofList (symbols.filter fun s => s ≠ epsilonSymbol && !heads.contains s)

def parseInferring (text : List Char) : Except Error Grammar :=
  parse (inferredTerminals text) text

def printRule (r : Rule) : List Char := List.intercalate [' '] (r.map String.toList)

/-- The rules of a variable stand in the order of their texts. -/
def printVariable (g : Grammar) (v : String) : List Char :=
  let texts := ((g.rules v).toList.map printRule).mergeSort fun s t => (compare s t).isLE
  v.toList ++ "\t-> ".toList ++ List.intercalate " | ".toList texts

def print (g : Grammar) : List Char := List.intercalate ['\n'] (g.vars.map g.printVariable)

end FormalLanguages.Grammar
