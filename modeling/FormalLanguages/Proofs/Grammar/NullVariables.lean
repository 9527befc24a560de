import FormalLanguages.Proofs.Grammar.Inline

/-!
# Variables that stand for the empty word alone

A variable that yields the empty word and leads to no terminal stands for nothing else. The
converse needs a grammar in which every variable derives something: there a terminal to which a
variable leads is part of a word that the variable yields. The start stays even if it stands for
the empty word alone.
-/

namespace FormalLanguages.Grammar

open Std

variable {g : Grammar} {v : String} {w : List String}

/-- The word around a terminal comes from what the other symbols of the rules yield. -/
theorem WellFormed.exists_ne_nil_of_showing (hg : g.WellFormed) (h : g.Productive)
    (hv : v ∈ g.showing) : ∃ w, g.Yields [v] w ∧ w ≠ [] := by
  refine leastSet_induction (P := fun v => ∃ w, g.Yields [v] w ∧ w ≠ []) ?_ v hv
  intro s hs v r hr hp
  obtain ⟨a, ha, hpa⟩ := List.any_eq_true.1 hp
  simp only [isTerminal_iff, Bool.or_eq_true, decide_eq_true_eq] at hpa
  obtain ⟨u, hu, hne⟩ : ∃ u, g.Yields [a] u ∧ u ≠ [] := by
    rcases hpa with ht | has
    · exact ⟨[a], .terminal ht .nil, List.cons_ne_nil _ _⟩
    · exact hs a has
  obtain ⟨w, hw, hsub⟩ := exists_yields_of_rule hr (hg.exists_yields_of_symbol h hr) ha hu
  obtain ⟨t, ht⟩ := List.exists_mem_of_ne_nil u hne
  exact ⟨w, hw, List.ne_nil_of_mem (hsub t ht)⟩

theorem WellFormed.mem_nullVariables_of_yields (hg : g.WellFormed) (h : g.Productive)
    (hv : v ∈ g.vars) (hyields : ∀ w, g.Yields [v] w ↔ w = []) : v ∈ g.nullVariables := by
  have hnullable := (mem_nullable_iff (hg.ne_epsilon hv)).2 ((hyields []).2 rfl)
  refine ExtTreeSet.mem_diff_iff.2 ⟨hnullable, fun hshow => ?_⟩
  obtain ⟨w, hw, hne⟩ := hg.exists_ne_nil_of_showing h hshow
  exact hne ((hyields w).1 hw)

theorem WellFormed.mem_vars_of_null (hg : g.WellFormed) (hv : v ∈ g.nullVariables) :
    v ∈ g.vars :=
  hg.mem_vars_of_leastSet (ExtTreeSet.mem_diff_iff.1 hv).1

theorem mem_vars_eliminateNull :
    v ∈ g.eliminateNull.vars ↔ v ∈ g.vars ∧ (v = g.start ∨ v ∉ g.nullVariables) := by
  have hkeep : v ∉ g.nullVariables.erase g.start ↔ v = g.start ∨ v ∉ g.nullVariables := by
    rw [mem_erase_iff, not_and_or, not_not]
  rw [eliminateNull, mem_vars_retain, decide_eq_true_eq, hkeep, mem_vars_iff]
  show v = g.start ∨ v ∈ g.others ∧ _ ↔ _
  grind

/-- The set has just the variables that stand for the empty word alone, if each variable derives
something; in any case it has no others. They are left out but for the start, and all that is left
stands for the same words as before. -/
theorem eliminateNull_exact (hg : g.WellFormed) :
    (∀ v ∈ g.nullVariables, v ∈ g.vars ∧ ∀ w, g.Yields [v] w ↔ w = []) ∧
    ((∀ v ∈ g.vars, ∃ w, g.Yields [v] w) →
      ∀ v ∈ g.vars, (∀ w, g.Yields [v] w ↔ w = []) → v ∈ g.nullVariables) ∧
    g.eliminateNull.WellFormed ∧ g.eliminateNull.start = g.start ∧
    (∀ v, v ∈ g.eliminateNull.vars ↔ v ∈ g.vars ∧ (v = g.start ∨ v ∉ g.nullVariables)) ∧
    ∀ v ∈ g.eliminateNull.vars, ∀ w, g.eliminateNull.Yields [v] w ↔ g.Yields [v] w := by
  have hconservative := hg.conservative_eliminateNull
  refine ⟨fun v hv => ⟨hg.mem_vars_of_null hv, fun w => yields_null_iff hg hv⟩, ?_,
    hconservative.wellFormed, rfl, fun v => mem_vars_eliminateNull, hconservative.yields_iff⟩
  exact fun h v hv hyields => hg.mem_nullVariables_of_yields h hv hyields

def blank : Grammar := (Grammar.empty ∅ "S").addRule "S" Rule.epsilon

theorem blank_wellFormed : blank.WellFormed := by
  have hempty : (Grammar.empty ∅ "S").WellFormed := by
    apply wellFormed_empty <;> simp [epsilonSymbol]
  exact hempty.addRule (by simp [Grammar.empty]) (by decide)

theorem blank_yields : blank.Yields ["S"] w ↔ w = [] := by
  have hS : "S" ∈ blank.vars := mem_vars_addRule.2 (.inl rfl)
  have hrules : ∀ b, b ∈ blank.rules "S" ↔ b = Rule.epsilon := by
    intro b
    simp [blank, mem_rules_addRule]
  rw [blank_wellFormed.yields_variable_iff hS]
  simp only [hrules, exists_eq_left, blank_wellFormed.yields_epsilon_iff]

/-- A variable of `mixed` is left out. The start of `blank` is in the set, too, and stays. -/
theorem eliminateNull_mixed : mixed.WellFormed ∧ "N" ∈ mixed.nullVariables ∧
    (∀ w, mixed.Yields ["N"] w ↔ w = []) ∧ "N" ∉ mixed.eliminateNull.vars ∧
    ["a", "S"] ∈ mixed.eliminateNull.rules "S" ∧
    mixed.eliminateNull.Derives ["a", "a"] ∧
    "S" ∈ blank.nullVariables ∧ "S" ∈ blank.eliminateNull.vars := by
  obtain ⟨hnull, -, -, hstart, hvars, hyields⟩ := eliminateNull_exact mixed_wellFormed
  obtain ⟨-, hall, -, -, hvars_blank, -⟩ := eliminateNull_exact blank_wellFormed
  have hN : "N" ∈ mixed.nullVariables := by decide +kernel
  have hne : "N" ≠ mixed.start := by decide +kernel
  have hnames : blank.vars = ["S"] := by decide +kernel
  have hS : "S" ∈ blank.vars := hnames ▸ List.mem_singleton_self "S"
  refine ⟨mixed_wellFormed, hN, (hnull "N" hN).2, fun h => ?_, by decide +kernel, ?_, ?_, ?_⟩
  · exact ((hvars "N").1 h).2.elim hne fun hout => hout hN
  · rw [Derives, hstart]
    exact (hyields mixed.start (hstart ▸ start_mem_vars _) _).2 (mixed_derives 2)
  · refine hall (fun v hv => ?_) "S" hS fun w => blank_yields
    rw [hnames, List.mem_singleton] at hv
    exact ⟨[], hv ▸ blank_yields.2 rfl⟩
  · exact (hvars_blank "S").2 ⟨hS, .inl (by decide +kernel)⟩

end FormalLanguages.Grammar
