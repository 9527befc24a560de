import FormalLanguages.Grammar.Trim

/-!
# Inlining

Variables that only pass on another variable, variables with a single rule, variables that derive
nothing but the empty word, and variables that do not mention themselves are replaced where they
occur. Each step removes one variable, and the steps are taken in the order of the variables until
there is none left to take.
-/

namespace FormalLanguages.Grammar

open Std

/-- Puts the same symbols in place of every occurrence of a variable. -/
def replace (v : String) (body r : Rule) : Rule :=
  r.flatMap fun s => if s = v then body else [s]

/-- A variable and the other variable that is its only rule. -/
def delegation? (g : Grammar) : Option (String × String) :=
  g.vars.findSome? fun v =>
    match g.soleRule? v with
    | some [u] => if g.isVariable u && u ≠ v then some (v, u) else none
    | _ => none

/-- `v` takes over the rules and the place of `u`. -/
def merge (g : Grammar) (v u : String) : Grammar :=
  let renamed := g.mapRules fun _ r => [replace u [v] r]
  let g' := { g with
    productions := (renamed.productions.erase u).insert v ((renamed.rules u).filter (· ≠ [v])) }
  if g.start = u then { g' with start := v, others := g.others.filter (· ≠ v) }
  else { g' with others := g.others.filter (· ≠ u) }

def eliminateDelegating (g : Grammar) : Grammar :=
  exhaust (fun g => g.delegation?.map fun (v, u) => g.merge v u) g.others.length g

/-- A variable other than the start whose only rule does not mention it. -/
def single? (g : Grammar) : Option (String × Rule) :=
  g.others.findSome? fun v =>
    match g.soleRule? v with
    | some r => if v ∈ r then none else some (v, r)
    | none => none

def eliminateSingleRule (g : Grammar) : Grammar :=
  exhaust (fun g => g.single?.map fun (v, b) =>
    (g.mapRules fun _ r => [replace v b r]).dropVariable v) g.others.length g

def eliminateNull (g : Grammar) : Grammar :=
  let null := g.nullVariables.erase g.start
  (g.mapRules fun _ r => [r.filter (· ∉ null)]).retain (· ∉ null)

/-- Replaces every occurrence of a variable, each by any of the given rules. -/
def substitute (v : String) (bodies : List Rule) : Rule → List Rule
  | [] => [[]]
  | s :: r =>
    let rest := substitute v bodies r
    if s = v then bodies.flatMap fun b => rest.map (b ++ ·) else rest.map (s :: ·)

/-- A variable other than the start that none of its rules mentions. -/
def nonRecursive? (g : Grammar) : Option String :=
  g.others.find? fun v => (g.rules v).toList.all (v ∉ ·)

def eliminateNonSelfRecursive (g : Grammar) : Grammar :=
  exhaust (fun g => g.nonRecursive?.map fun v =>
    (g.mapRules fun _ => substitute v (g.rules v).toList).dropVariable v) g.others.length g

/-- A variable that only doubles itself or vanishes derives the empty word and nothing else. -/
def collapseTrivialStar (g : Grammar) : Grammar :=
  { g with productions := g.productions.map fun v rs =>
      if rs = .ofList [[v, v], Rule.epsilon] then {Rule.epsilon} else rs }

/-- One round of inlining on a trimmed grammar, which is trimmed again. -/
def inlineOnce (g : Grammar) : Grammar :=
  g.eliminateDelegating.eliminateSingleRule.eliminateNull.trim

/-- The steps make room for each other, so there are two rounds. -/
def simplify (g : Grammar) : Grammar := g.trim.inlineOnce.inlineOnce

end FormalLanguages.Grammar
