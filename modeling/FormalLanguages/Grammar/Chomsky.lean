import FormalLanguages.Grammar.Trim

/-!
# Chomsky normal form

In Chomsky normal form a rule is one terminal, or two variables neither of which is the start, or
the rule for the empty word of the start. A grammar gets there by a new start, by removing the
rules for the empty word and then the rules that are one variable, by giving each terminal in a
longer rule a variable of its own, and by cutting long rules in two again and again.
-/

namespace FormalLanguages.Grammar

open Std

/-- The rules left when any of the occurrences of a variable are deleted. -/
def erasures (v : String) : Rule → List Rule
  | [] => [[]]
  | s :: r =>
    let rest := erasures v r
    if s = v then rest ++ rest.map (s :: ·) else rest.map (s :: ·)

/-- A variable other than the start with a rule for the empty word. -/
def epsilonRule? (g : Grammar) : Option String :=
  g.others.find? fun v => Rule.epsilon ∈ g.rules v

/-- A grammar and the variables that have lost their rule for the empty word. -/
structure Stripping where
  grammar : Grammar
  stripped : ExtTreeSet String := ∅

/-- A variable loses its rule for the empty word. Instead any of its occurrences may be deleted
from a rule. A variable that has lost its rule for the empty word does not get it again. -/
def Stripping.strip (s : Stripping) (v : String) : Stripping :=
  let stripped := s.stripped.insert v
  { stripped
    grammar := s.grammar.mapRules fun u r =>
      ((erasures v r).map Rule.collapse).filter fun b => b ≠ Rule.epsilon || u ∉ stripped }

/-- Only the start keeps a rule for the empty word. -/
def eliminateEpsilon (g : Grammar) : Grammar :=
  (exhaust (fun s : Stripping => s.grammar.epsilonRule?.map s.strip) g.others.length
    { grammar := g }).grammar

/-- A rule that is one variable, with the variable it is of. -/
def unitRule? (g : Grammar) : Option (String × String) :=
  g.vars.findSome? fun v => (g.rules v).toList.findSome? fun
    | [u] => if g.isVariable u then some (v, u) else none
    | _ => none

/-- A grammar and the rules that are one variable and have been unfolded, each with its variable. -/
structure Unfolding where
  grammar : Grammar
  unfolded : List (String × String) := []

/-- The rule `u` of `v` gives way to the rules of `u`, the first time that it is met. -/
def Unfolding.unfoldRule (s : Unfolding) (v u : String) : Unfolding :=
  let rest := (s.grammar.rules v).erase [u]
  if (v, u) ∈ s.unfolded then { s with grammar := s.grammar.setRules v rest }
  else
    { grammar := s.grammar.setRules v (rest ∪ s.grammar.rules u)
      unfolded := (v, u) :: s.unfolded }

/-- A bound on the number of steps. There are at most as many rules to unfold as pairs of
variables; each is unfolded once, and after that the rules that come back are removed. -/
def unfoldBound (g : Grammar) : Nat :=
  let pairs := g.vars.length * g.vars.length
  (pairs + 1) * (pairs + 1)

/-- No rule is one variable. -/
def eliminateUnits (g : Grammar) : Grammar :=
  (exhaust (fun s : Unfolding => s.grammar.unitRule?.map fun (v, u) => s.unfoldRule v u)
    g.unfoldBound { grammar := g }).grammar

/-- Notes a variable whose only rule is a terminal. Of several the first counts. -/
def noteTerminal (g : Grammar) (m : ExtTreeMap String String) (v : String) :
    ExtTreeMap String String :=
  match g.soleRule? v with
  | some [t] => if g.isTerminal t then m.insertIfNew t v else m
  | _ => m

/-- The terminals with a variable other than the start whose only rule they are. -/
def terminalVariables (g : Grammar) : ExtTreeMap String String := g.others.foldl g.noteTerminal ∅

/-- The symbols of the longer rules, in the order of the variables and of their rules. -/
def longRuleSymbols (g : Grammar) : List String :=
  (g.productions.toList.flatMap fun (_, rs) => rs.toList.filter fun r => r.length > 1).flatten

theorem mem_longRuleSymbols {g : Grammar} {t : String} :
    t ∈ g.longRuleSymbols ↔ ∃ v, ∃ r ∈ g.rules v, 1 < r.length ∧ t ∈ r := by
  simp only [longRuleSymbols, List.mem_flatten, List.mem_flatMap, List.mem_filter, Prod.exists,
    ExtTreeSet.mem_toList, decide_eq_true_eq, mem_rules_iff]
  grind

/-- A grammar on the way to one without terminals in longer rules, the variables that stand for
terminals there, and the number of those that are new. -/
structure Isolating where
  grammar : Grammar
  variableOf : ExtTreeMap String String
  counter : Nat := 0

/-- A terminal gets a variable unless it has one. -/
def Isolating.isolate (s : Isolating) (t : String) : Isolating :=
  if s.grammar.isTerminal t && t ∉ s.variableOf then
    let v := s.grammar.unusedName (numbered "U" (s.counter + 1))
    { grammar := s.grammar.addRule v [t]
      variableOf := s.variableOf.insert t v
      counter := s.counter + 1 }
  else s

/-- The variable that stands for a terminal, if there is one. Other symbols are left as they are. -/
def Isolating.name (s : Isolating) (a : String) : String := s.variableOf.getD a a

/-- Replaces the terminals in longer rules. -/
def Isolating.replaceTerminals (s : Isolating) : Grammar :=
  s.grammar.mapRules fun _ r => if r.length = 1 then [r] else [r.map s.name]

/-- Where the isolation of terminals ends. -/
def isolating (g : Grammar) : Isolating :=
  g.longRuleSymbols.foldl Isolating.isolate { grammar := g, variableOf := g.terminalVariables }

/-- Each terminal in a longer rule gets a variable that derives just this terminal. -/
def isolateTerminals (g : Grammar) : Grammar := g.isolating.replaceTerminals

/-- What is known while long rules are cut: the grammar so far, the variables made for the ends
of rules, and the last number used in a name. -/
structure Cutting where
  grammar : Grammar
  tails : ExtTreeMap (List String) String := ∅
  counter : Nat := 0

/-- A new variable for an end of a rule. It is known before it has its rule. -/
def Cutting.name (s : Cutting) (owner : String) (tail : List String) : String × Cutting :=
  let n := firstFree (numbered owner) s.grammar.taken (s.counter + 1)
  (numbered owner n, { s with counter := n, tails := s.tails.insert tail (numbered owner n) })

/-- Cuts a rule after its first symbol if it is longer than two. What is left becomes the rule of
a variable, and is cut in turn. Equal ends share one variable. -/
def cutRule (owner : String) : Rule → Cutting → Rule × Cutting
  | a :: b :: c :: rest, s =>
    let tail := b :: c :: rest
    match s.tails[tail]? with
    | some x => ([a, x], s)
    | none =>
      let (x, s) := s.name owner tail
      let (r, s) := cutRule owner tail s
      ([a, x], { s with grammar := s.grammar.addRule x r })
  | r, s => (r, s)

def cutRules (owner : String) : List Rule → Cutting → List Rule × Cutting
  | [], s => ([], s)
  | r :: rs, s =>
    let (r, s) := cutRule owner r s
    let (rs, s) := cutRules owner rs s
    (r :: rs, s)

/-- Cuts the rules of one variable; the numbers in the names begin anew. -/
def cutVariable (g : Grammar) (s : Cutting) (v : String) : Cutting :=
  let (rules, s) := cutRules v (g.rules v).toList { s with counter := 0 }
  { s with grammar := s.grammar.setRules v (.ofList rules) }

/-- What is known when all long rules are cut. -/
def cutting (g : Grammar) : Cutting := g.vars.foldl g.cutVariable { grammar := g }

/-- No rule is longer than two. -/
def binarize (g : Grammar) : Grammar := g.cutting.grammar

def toChomsky (g : Grammar) : Grammar :=
  let g := ((g.trim.augmentStart "S0").eliminateEpsilon.eliminateUnits).trim
  g.isolateTerminals.binarize.trim

def isChomskyRule (g : Grammar) (v : String) : Rule → Bool
  | [s] => g.isTerminal s || s == epsilonSymbol && v == g.start
  | [s, t] => g.isVariable s && g.isVariable t && s ≠ g.start && t ≠ g.start
  | _ => false

def isChomsky (g : Grammar) : Bool :=
  g.productions.toList.all fun (v, rs) => rs.toList.all (g.isChomskyRule v)

end FormalLanguages.Grammar
