import FormalLanguages.Proofs.Grammar.Simplify

/-!
# Variables that pass on another variable

A variable that only passes on another one takes its place and its rules. Each merge leaves one
variable less, and those that are left stand for the same words as before, also when the variable
that goes is the start or when variables pass on each other in a circle.
-/

namespace FormalLanguages.Grammar

variable {g : Grammar} {u v : String}

/-- The other variable `u` is the only rule of `v`. -/
structure Delegates (g : Grammar) (v u : String) : Prop where
  mem_vars : u ∈ g.vars
  ne : u ≠ v
  mem_rules_iff : ∀ b, b ∈ g.rules v ↔ b = [u]

/-- A variable that delegates is found. -/
theorem not_delegates_of_delegation? (h : g.delegation? = none) (hv : v ∈ g.vars) :
    ¬ g.Delegates v u := by
  intro hdelegates
  have hsole : g.soleRule? v = some [u] :=
    soleRule?_eq_some_iff.2 (toList_eq_singleton hdelegates.mem_rules_iff)
  have hnone := List.findSome?_eq_none_iff.1 h v hv
  simp [hsole, hdelegates.mem_vars, hdelegates.ne] at hnone

theorem WellFormed.conservative_eliminateDelegating (hg : g.WellFormed) :
    g.Conservative g.eliminateDelegating := by
  refine exhaust_induction (P := g.Conservative) ?_ _ (.refl hg)
  intro k k' hk hstep
  obtain ⟨⟨v, u⟩, hdelegation, rfl⟩ := Option.map_eq_some_iff.1 hstep
  obtain ⟨hv, hsole, hu, hne⟩ := delegation?_eq_some hdelegation
  exact hk.trans (conservative_merge hk.wellFormed hv hsole hu hne)

theorem WellFormed.not_delegates_eliminateDelegating (hg : g.WellFormed) :
    ¬ g.eliminateDelegating.Delegates v u := by
  intro hdelegates
  have hnone := Option.map_eq_none_iff.1 g.exhausts_eliminateDelegating.step?_eq_none
  have hrule : [u] ∈ g.eliminateDelegating.rules v := (hdelegates.mem_rules_iff [u]).2 rfl
  have hv := hg.conservative_eliminateDelegating.wellFormed.mem_vars_of_rule hrule
  exact not_delegates_of_delegation? hnone hv hdelegates

/-- The merges come to an end when no variable delegates any more. The start comes first, whichever
variable it is then, and it stands for the same words as the start did, and so does every variable
that is left for those it stood for. -/
theorem eliminateDelegating_exact (hg : g.WellFormed) :
    Exhausts mergeStep? g g.eliminateDelegating ∧
    g.eliminateDelegating.WellFormed ∧
    (∀ v u, ¬ g.eliminateDelegating.Delegates v u) ∧
    g.eliminateDelegating.vars.head? = some g.eliminateDelegating.start ∧
    (∀ w, g.eliminateDelegating.Yields [g.eliminateDelegating.start] w ↔ g.Yields [g.start] w) ∧
    ∀ v ∈ g.eliminateDelegating.vars, v ∈ g.vars ∧
      ∀ w, g.eliminateDelegating.Yields [v] w ↔ g.Yields [v] w := by
  have hequiv := hg.equivalent_eliminateDelegating
  have hconservative := hg.conservative_eliminateDelegating
  refine ⟨g.exhausts_eliminateDelegating, hequiv.wellFormed,
    fun _ _ => hg.not_delegates_eliminateDelegating, rfl, hequiv.derives, fun v hv => ?_⟩
  exact ⟨hconservative.mem_vars v hv, hconservative.yields_iff v hv⟩

/-- The start goes, and the variable that delegated to it is the start in its place. -/
theorem eliminateDelegating_nested : nested.WellFormed ∧ nested.start = "S" ∧
    nested.Delegates "A" "S" ∧ nested.eliminateDelegating.start = "A" ∧
    ¬ nested.eliminateDelegating.Delegates "A" "S" ∧
    nested.eliminateDelegating.Yields ["A"] ["a", "a", "b", "b"] ∧
    nested.Yields ["A"] ["a", "a", "b", "b"] := by
  obtain ⟨-, -, hnone, -, hstart, hkept⟩ := eliminateDelegating_exact nested_wellFormed
  have hA : nested.eliminateDelegating.start = "A" := by decide +kernel
  have hyields := (hstart _).2 (nested_derives 2)
  rw [hA] at hyields
  refine ⟨nested_wellFormed, by decide +kernel, ?_, hA, hnone "A" "S", hyields, ?_⟩
  · constructor
    · decide +kernel
    · decide
    · intro b
      simp [nested, mem_rules_addRule, Rule.collapse, epsilonSymbol]
  · exact ((hkept "A" (hA ▸ start_mem_vars _)).2 _).1 hyields

end FormalLanguages.Grammar
