import FormalLanguages.Chart.Enumeration

/-!
# Comparing context-free languages

Whether two grammars have the same language cannot be decided. Their sentences are compared
length by length, until a difference shows or the budget is spent.
-/

namespace FormalLanguages

open Std

/-- The greatest length to compare, and how many texts may be listed in all. -/
structure Budget where
  maxLength : Nat := 10
  maxTexts : Nat := 50000
deriving DecidableEq, Repr

/-- No list of texts is longer than the largest number of 64 bits. -/
def Budget.maxCount : Nat := 18446744073709551615

inductive Verdict where
  /-- The least text of this length that only one of the languages has, for each side. -/
  | different (length : Nat) (left right : Option String)
  /-- The greatest length up to which the languages agree for certain. -/
  | inconclusive (checkedUpTo : Option Nat)
deriving DecidableEq, Repr

/-- All texts of a length and what is left of the budget, if it is enough for them. -/
def listTexts? (c : Chart) (n remaining : Nat) : Option (ExtTreeSet String × Nat) :=
  let texts : ExtTreeSet String := .ofList (c.texts n (min (remaining + 1) Budget.maxCount))
  if texts.size ≤ remaining then some (texts, remaining - texts.size) else none

/-- Compares `count` lengths, the first of them `n`. -/
def compareLengths (c d : Chart) : Nat → Nat → Nat → Option Nat → Verdict
  | 0, _, _, checked => .inconclusive checked
  | count + 1, n, remaining, checked =>
    match listTexts? c n remaining with
    | none => .inconclusive checked
    | some (left, remaining) =>
      match listTexts? d n remaining with
      | none => .inconclusive checked
      | some (right, remaining) =>
        if left = right then compareLengths c d count (n + 1) remaining (some n)
        else .different n (left \ right).toList.head? (right \ left).toList.head?

def Grammar.findDifference (g h : Grammar) (budget : Budget) : Verdict :=
  compareLengths g.generator h.generator (budget.maxLength + 1) 0 budget.maxTexts none

end FormalLanguages
