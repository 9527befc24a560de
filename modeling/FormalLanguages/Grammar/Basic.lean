import FormalLanguages.Alphabet
import FormalLanguages.Grammar.Names
import Std.Data.ExtTreeMap

/-!
# Context-free grammars

Terminals and variables are names. A rule is a list of symbols, and the rule for the empty word
is the symbol `ε` alone. Variables are kept in the order in which they were introduced, the start
first. A variable may have no entry among the productions or an entry without rules.
-/

namespace FormalLanguages

open Std

abbrev Rule := List String

namespace Rule

def epsilon : Rule := [epsilonSymbol]

/-- Leaves out the empty word, unless nothing else is there. -/
def collapse (r : Rule) : Rule :=
  let kept := r.filter (· ≠ epsilonSymbol)
  if kept = [] then epsilon else kept

end Rule

abbrev RuleSet := ExtTreeSet Rule

structure Grammar where
  terminals : ExtTreeSet String
  start : String
  /-- The variables but the start. -/
  others : List String
  productions : ExtTreeMap String RuleSet
deriving DecidableEq

namespace Grammar

def vars (g : Grammar) : List String := g.start :: g.others

def rules (g : Grammar) (v : String) : RuleSet := g.productions.getD v ∅

theorem mem_rules_iff {g : Grammar} {v : String} {r : Rule} :
    r ∈ g.rules v ↔ ∃ rs, (v, rs) ∈ g.productions.toList ∧ r ∈ rs := by
  simp only [rules, ExtTreeMap.mem_toList_iff_getElem?_eq_some, ExtTreeMap.getD_eq_getD_getElem?]
  cases g.productions[v]? <;> simp

/-- The rule of a variable that has exactly one. -/
def soleRule? (g : Grammar) (v : String) : Option Rule :=
  match (g.rules v).toList with
  | [r] => some r
  | _ => none

theorem soleRule?_eq_some_iff {g : Grammar} {v : String} {r : Rule} :
    g.soleRule? v = some r ↔ (g.rules v).toList = [r] := by
  unfold soleRule?
  split
  · next r' h => simp [h]
  · next h => simpa using h r

def ruleCount (g : Grammar) : Nat :=
  g.productions.foldl (fun count _ rs => count + rs.size) 0

/-- The grammar of the empty language. -/
def empty (terminals : ExtTreeSet String) (start : String) : Grammar :=
  { terminals, start, others := [], productions := ∅ }

def isTerminal (g : Grammar) (s : String) : Bool := s ∈ g.terminals

def isVariable (g : Grammar) (s : String) : Bool := s ∈ g.vars

@[simp] theorem isTerminal_iff {g : Grammar} {s : String} : g.isTerminal s ↔ s ∈ g.terminals := by
  simp [isTerminal]

@[simp] theorem isVariable_iff {g : Grammar} {s : String} : g.isVariable s ↔ s ∈ g.vars := by
  simp [isVariable]

def isUnitRule (g : Grammar) : Rule → Bool
  | [s] => g.isVariable s
  | _ => false

def addVariable (g : Grammar) (v : String) : Grammar :=
  if g.isVariable v then g else { g with others := g.others ++ [v] }

@[simp] theorem mem_vars_addVariable {g : Grammar} {u v : String} :
    u ∈ (g.addVariable v).vars ↔ u = v ∨ u ∈ g.vars := by
  unfold addVariable
  split
  · next h => simp_all
  · simp [vars]; grind

@[simp] theorem productions_addVariable (g : Grammar) (v : String) :
    (g.addVariable v).productions = g.productions := by
  unfold addVariable
  split <;> rfl

@[simp] theorem terminals_addVariable (g : Grammar) (v : String) :
    (g.addVariable v).terminals = g.terminals := by
  unfold addVariable
  split <;> rfl

@[simp] theorem start_addVariable (g : Grammar) (v : String) :
    (g.addVariable v).start = g.start := by
  unfold addVariable
  split <;> rfl

@[simp] theorem mem_vars_foldl_addVariable {g : Grammar} {u : String} {vs : List String} :
    u ∈ (vs.foldl addVariable g).vars ↔ u ∈ vs ∨ u ∈ g.vars := by
  induction vs generalizing g with
  | nil => simp
  | cons v vs ih => simp [ih, or_assoc, or_left_comm]

@[simp] theorem productions_foldl_addVariable (g : Grammar) (vs : List String) :
    (vs.foldl addVariable g).productions = g.productions := by
  induction vs generalizing g <;> simp_all

@[simp] theorem terminals_foldl_addVariable (g : Grammar) (vs : List String) :
    (vs.foldl addVariable g).terminals = g.terminals := by
  induction vs generalizing g <;> simp_all

@[simp] theorem start_foldl_addVariable (g : Grammar) (vs : List String) :
    (vs.foldl addVariable g).start = g.start := by
  induction vs generalizing g <;> simp_all

/-- Adds a rule. Its symbols that are not terminals become variables. -/
def addRule (g : Grammar) (v : String) (r : Rule) : Grammar :=
  let r := r.collapse
  let unknown := r.filter fun s => s ≠ epsilonSymbol && !g.isTerminal s
  let g := (v :: unknown).foldl addVariable g
  { g with productions := g.productions.insert v ((g.rules v).insert r) }

@[simp] theorem terminals_addRule (g : Grammar) (v : String) (r : Rule) :
    (g.addRule v r).terminals = g.terminals := by
  simp [addRule]

@[simp] theorem start_addRule (g : Grammar) (v : String) (r : Rule) :
    (g.addRule v r).start = g.start := by
  simp [addRule]

theorem mem_vars_addRule {g : Grammar} {u v : String} {r : Rule} :
    u ∈ (g.addRule v r).vars ↔ u = v ∨ u ∈ g.vars ∨
      u ∈ r.collapse ∧ u ≠ epsilonSymbol ∧ u ∉ g.terminals := by
  show u ∈ (List.foldl addVariable g _).vars ↔ _
  simp only [mem_vars_foldl_addVariable, List.mem_cons, List.mem_filter]
  grind [isTerminal_iff]

theorem mem_rules_addRule {g : Grammar} {u v : String} {r b : Rule} :
    b ∈ (g.addRule v r).rules u ↔ u = v ∧ b = r.collapse ∨ b ∈ g.rules u := by
  simp only [rules, addRule, productions_foldl_addVariable, ExtTreeMap.getD_insert,
    LawfulEqCmp.compare_eq_iff_eq]
  split
  · next h => rw [ExtTreeSet.mem_insert, LawfulEqCmp.compare_eq_iff_eq]; simp [h, eq_comm]
  · next h => simp [Ne.symm h]

theorem rules_addRule_of_ne {g : Grammar} {u v : String} (h : u ≠ v) (r : Rule) :
    (g.addRule v r).rules u = g.rules u := by
  apply ExtTreeSet.ext_mem
  simp [mem_rules_addRule, h]

/-- A variable without rules has just the one that is added. -/
theorem mem_rules_addRule_self {g : Grammar} {v : String} {r b : Rule} (h : g.rules v = ∅) :
    b ∈ (g.addRule v r).rules v ↔ b = r.collapse := by
  simp [mem_rules_addRule, h]

/-- Adds rules, each with its variable, one after another. -/
def addRules (g : Grammar) (rules : List (String × Rule)) : Grammar :=
  rules.foldl (fun g (v, r) => g.addRule v r) g

@[simp] theorem terminals_addRules (g : Grammar) (rules : List (String × Rule)) :
    (g.addRules rules).terminals = g.terminals := by
  unfold addRules
  induction rules generalizing g <;> simp_all

@[simp] theorem start_addRules (g : Grammar) (rules : List (String × Rule)) :
    (g.addRules rules).start = g.start := by
  unfold addRules
  induction rules generalizing g <;> simp_all

theorem mem_rules_addRules {g : Grammar} {rules : List (String × Rule)} {u : String} {b : Rule} :
    b ∈ (g.addRules rules).rules u ↔ (∃ r, (u, r) ∈ rules ∧ r.collapse = b) ∨ b ∈ g.rules u := by
  unfold addRules
  induction rules generalizing g with
  | nil => simp
  | cons rule rules ih =>
    rw [List.foldl_cons, ih, mem_rules_addRule]
    simp only [List.mem_cons, Prod.ext_iff]
    grind

/-- Replaces each rule by any number of rules. -/
def mapRules (g : Grammar) (f : String → Rule → List Rule) : Grammar :=
  { g with productions := g.productions.map fun v rs =>
      .ofList ((rs.toList.flatMap (f v)).map Rule.collapse) }

theorem mem_rules_mapRules {g : Grammar} {f : String → Rule → List Rule} {v : String} {b : Rule} :
    b ∈ (g.mapRules f).rules v ↔ ∃ r ∈ g.rules v, ∃ c ∈ f v r, c.collapse = b := by
  simp only [rules, mapRules, ExtTreeMap.getD_eq_getD_getElem?, ExtTreeMap.getElem?_map]
  cases g.productions[v]? with
  | none => simp
  | some rs => simp [ExtTreeSet.mem_ofList]; grind

/-- Gives a variable other rules. -/
def setRules (g : Grammar) (v : String) (rs : RuleSet) : Grammar :=
  { g with productions := g.productions.insert v rs }

theorem rules_setRules {g : Grammar} {u v : String} {rs : RuleSet} :
    (g.setRules v rs).rules u = if u = v then rs else g.rules u := by
  simp only [rules, setRules, ExtTreeMap.getD_insert, LawfulEqCmp.compare_eq_iff_eq]
  grind

/-- Keeps the start and the variables that pass a test. Rules are not looked into. -/
def retain (g : Grammar) (keep : String → Bool) : Grammar :=
  let others := g.others.filter keep
  { g with
    others
    productions := g.productions.filter fun v _ => v == g.start || v ∈ others }

theorem rules_retain {g : Grammar} {keep : String → Bool} {v : String} :
    (g.retain keep).rules v =
      if v = g.start ∨ v ∈ g.others ∧ keep v then g.rules v else ∅ := by
  simp only [rules, retain, ExtTreeMap.getD_eq_getD_getElem?, ExtTreeMap.getElem?_filter,
    ExtTreeMap.getKey_eq, Option.pfilter_eq_filter]
  cases g.productions[v]? <;> simp [Option.filter]; grind

/-- Makes a variable the start. -/
def withStart (g : Grammar) (v : String) : Grammar :=
  { g with start := v, others := g.vars.filter (· ≠ v) }

/-- Removes a variable other than the start, and its rules. -/
def dropVariable (g : Grammar) (v : String) : Grammar :=
  { g with others := g.others.filter (· ≠ v), productions := g.productions.erase v }

theorem rules_dropVariable {g : Grammar} {u v : String} :
    (g.dropVariable v).rules u = if u = v then ∅ else g.rules u := by
  simp only [rules, dropVariable, ExtTreeMap.getD_erase, LawfulEqCmp.compare_eq_iff_eq]
  grind

/-- The names in use. -/
def taken (g : Grammar) : List String := g.vars ++ g.terminals.toList

def unusedName (g : Grammar) (base : String) : String := FormalLanguages.unusedName base g.taken

/-- Adds a new start, whose only rule leads to the old one. -/
def augmentStart (g : Grammar) (base : String) : Grammar :=
  let v := g.unusedName base
  (g.addRule v [g.start]).withStart v

/-- The same grammar but for the order of its variables. -/
def same (g h : Grammar) : Bool :=
  g.terminals = h.terminals && g.start = h.start && g.productions = h.productions &&
    (ExtTreeSet.ofList g.vars : ExtTreeSet String) = .ofList h.vars

/-- `g.Yields r w`: the symbols of `r`, each replaced by a word it stands for, give `w`. A
terminal stands for itself and a variable for what its rules yield. -/
inductive Yields (g : Grammar) : Rule → List String → Prop
  | nil : Yields g [] []
  | epsilon {r w} : Yields g r w → Yields g (epsilonSymbol :: r) w
  | terminal {t r w} : t ∈ g.terminals → Yields g r w → Yields g (t :: r) (t :: w)
  | rule {v b r u w} : b ∈ g.rules v → Yields g b u → Yields g r w → Yields g (v :: r) (u ++ w)

/-- The token sequences of the language. -/
def Derives (g : Grammar) (w : List String) : Prop := g.Yields [g.start] w

/-- Terminals and variables are different and neither is the empty word; productions are of
variables; a rule is the rule for the empty word or a nonempty list of terminals and variables. -/
structure WellFormed (g : Grammar) : Prop where
  nodup : g.vars.Nodup
  disjoint : ∀ v ∈ g.vars, v ∉ g.terminals
  epsilon_not_terminal : epsilonSymbol ∉ g.terminals
  epsilon_not_variable : epsilonSymbol ∉ g.vars
  entry_mem : ∀ v ∈ g.productions, v ∈ g.vars
  rule_ok : ∀ v, ∀ r ∈ g.rules v, r = Rule.epsilon ∨
    r ≠ [] ∧ ∀ s ∈ r, s ∈ g.terminals ∨ s ∈ g.vars

end Grammar

end FormalLanguages
