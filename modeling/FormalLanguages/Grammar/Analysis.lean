import FormalLanguages.Grammar.Basic
import FormalLanguages.Search

/-!
# Analyses of grammars

Which variables derive something, which can be reached from the start, and which derive the empty
word, or nothing but the empty word. Each set but the second is the least one closed under a
condition on rules; it is grown from the empty set.
-/

namespace FormalLanguages.Grammar

open Std

/-- Adds the variables with a rule that passes the test, which may use the set itself. -/
def enlarge (g : Grammar) (passes : ExtTreeSet String → String → Rule → Bool)
    (s : ExtTreeSet String) : ExtTreeSet String :=
  s.insertMany ((g.productions.toList.filter fun (v, rs) => rs.toList.any (passes s v)).map (·.1))

theorem mem_enlarge {g : Grammar} {passes : ExtTreeSet String → String → Rule → Bool}
    {s : ExtTreeSet String} {v : String} :
    v ∈ g.enlarge passes s ↔ v ∈ s ∨ ∃ r ∈ g.rules v, passes s v r := by
  simp only [enlarge, ExtTreeSet.mem_insertMany_list, List.contains_eq_mem, List.mem_map,
    List.mem_filter, decide_eq_true_eq, List.any_eq_true, ExtTreeSet.mem_toList, Prod.exists,
    mem_rules_iff]
  grind

/-- The least set of variables that has each variable with a rule that passes the test. A test
that passes must pass for larger sets as well. -/
def leastSet (g : Grammar) (passes : ExtTreeSet String → String → Rule → Bool) :
    ExtTreeSet String :=
  saturate (g.enlarge passes) g.productions.size ∅

/-- The variables that derive some sequence of terminals. -/
def generating (g : Grammar) : ExtTreeSet String :=
  g.leastSet fun s _ r => r.all fun a => a == epsilonSymbol || g.isTerminal a || a ∈ s

/-- The variables that derive the empty sequence. -/
def nullable (g : Grammar) : ExtTreeSet String :=
  g.leastSet fun s _ r => r.all fun a => a == epsilonSymbol || a ∈ s

/-- The variables with a rule that leads to a terminal, whether or not the rule derives
anything. -/
def showing (g : Grammar) : ExtTreeSet String :=
  g.leastSet fun s _ r => r.any fun a => g.isTerminal a || a ∈ s

/-- The variables that derive the empty sequence and lead to no terminal. -/
def nullVariables (g : Grammar) : ExtTreeSet String := g.nullable \ g.showing

/-- The variables in the rules of a variable. -/
def successors (g : Grammar) (v : String) : List String :=
  (g.rules v).toList.flatMap fun r => r.filter g.isVariable

/-- The variables that occur in what can be derived from the start. -/
def reachable (g : Grammar) : ExtTreeSet String :=
  (Search.reach g.successors (g.others.length + 1) [g.start]).seen

end FormalLanguages.Grammar
