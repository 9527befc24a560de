import FormalLanguages.Grammar.Analysis

/-!
# Trimming

Variables that derive nothing and variables that cannot be reached are removed, in this order,
and so are rules that lead from a variable to itself.
-/

namespace FormalLanguages.Grammar

/-- Of a grammar whose start derives nothing only the start is left. -/
def eliminateNonGenerating (g : Grammar) : Grammar :=
  let generating := g.generating
  if g.start ∈ generating then
    (g.mapRules fun _ r =>
      if r.all fun s => !g.isVariable s || s ∈ generating then [r] else []).retain (· ∈ generating)
  else empty g.terminals g.start

def eliminateUnreachable (g : Grammar) : Grammar :=
  let reachable := g.reachable
  g.retain (· ∈ reachable)

def eliminateSelfUnits (g : Grammar) : Grammar :=
  g.mapRules fun v r => if r = [v] then [] else [r]

def trim (g : Grammar) : Grammar :=
  g.eliminateNonGenerating.eliminateUnreachable.eliminateSelfUnits

end FormalLanguages.Grammar
