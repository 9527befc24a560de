import FormalLanguages.Automaton.Elimination
import FormalLanguages.Chart.Membership
import FormalLanguages.Comparison.ContextFree
import FormalLanguages.Comparison.Regular
import FormalLanguages.Grammar.Chomsky
import FormalLanguages.Grammar.Text
import FormalLanguages.LineFormat.Automata
import FormalLanguages.LineFormat.Pushdowns
import FormalLanguages.Pushdown.Triples

/-!
# Requests

Each request takes texts and answers with texts or with a failure. Requests do not depend on one
another.
-/

namespace FormalLanguages.Requests

/-- How two languages differ. Without witnesses, a conclusive answer says that they are equal. -/
structure Difference where
  left : Option (List Char)
  right : Option (List Char)
  /-- The length of the witnesses, or the length up to which the languages agree. -/
  length : Option Nat
  conclusive : Bool
deriving DecidableEq, Repr

/-- A regular expression for an automaton, or none if its language is empty. -/
def automatonToRegex (alphabet start accept edges : List Char) :
    Except Error (Option (List Char)) := do
  (← LineFormat.readNfa alphabet start accept edges).determinize.toRegex?

def compareRegexes (alphabet r s : List Char) : Except Error Difference := do
  let w ← Regex.witnesses (← LineFormat.readAlphabet alphabet) r s
  return { left := w.left, right := w.right, length := none, conclusive := true }

/-- Whether a text, read as a sequence of characters, is in the language of a grammar. -/
def grammarHas (terminals grammar text : List Char) : Except Error Bool := do
  return (← Grammar.parse (LineFormat.readTerminals terminals) grammar).trim.acceptsText text

def grammarToChomsky (grammar : List Char) : Except Error (List Char) := do
  return (← Grammar.parseInferring grammar).toChomsky.print

def ofVerdict : Verdict → Difference
  | .different n left right => ⟨left.map String.toList, right.map String.toList, some n, true⟩
  | .inconclusive checked => ⟨none, none, checked, false⟩

def compareGrammars (terminals g h : List Char) (maxLength : Nat) : Except Error Difference := do
  let terminals := LineFormat.readTerminals terminals
  let g ← Grammar.parse terminals g
  let h ← Grammar.parse terminals h
  return ofVerdict (g.findDifference h { maxLength })

def pushdownToGrammar (start accept moves : List Char) : Except Error (List Char) := do
  return (← (← LineFormat.readPushdown start accept moves).toGrammar).print

end FormalLanguages.Requests
