import FormalLanguages.Proofs.Grammar.Rename

/-!
# Renaming is an isomorphism

Renaming keeps the order of the variables and gives them the first short names that are not
terminals. It replaces all variables at once, so that an old name may be the new name of another
variable.
-/

namespace FormalLanguages.Grammar

open Std

variable {g : Grammar} {s t : String} {name : String → String}

/-- `name` takes the `i`-th variable to the `i`-th variable and leaves the other symbols as they
are. It takes the start to the start and the rules of each variable to those of its image. -/
structure Isomorphism (g h : Grammar) (name : String → String) : Prop where
  terminals : h.terminals = g.terminals
  vars : h.vars = g.vars.map name
  fixed : ∀ s, s ∉ g.vars → name s = s
  injective : ∀ s t, (s = epsilonSymbol ∨ g.IsSymbol s) → (t = epsilonSymbol ∨ g.IsSymbol t) →
    name s = name t → s = t
  start : h.start = name g.start
  rules : ∀ v ∈ g.vars, ∀ b, b ∈ h.rules (name v) ↔ ∃ r ∈ g.rules v, r.map name = b

theorem Renaming.eq_of_name_eq_of_symbols (hn : Renaming g name)
    (hs : s = epsilonSymbol ∨ g.IsSymbol s) (ht : t = epsilonSymbol ∨ g.IsSymbol t)
    (h : name s = name t) : s = t := by
  by_cases hvar : t ∈ g.vars
  · exact hn.eq_of_name_eq_name hvar hs h
  · rw [hn.fixed t hvar] at h
    exact hn.eq_of_name_eq (ht.imp_right fun hsym => hsym.resolve_right hvar) h

section Rename

variable (hg : g.WellFormed)
include hg

theorem WellFormed.map_newNames :
    g.vars.map (fun v => g.newNames.getD v v) = (g.shortNames g.vars 0).map (·.2) := by
  have hvars := map_fst_shortNames g g.vars 0
  rw [← hvars, List.map_map, hvars]
  apply List.map_congr_left
  intro named h
  have hv : named.1 ∈ g.vars := by
    rw [← hvars]
    exact List.mem_map_of_mem h
  obtain ⟨s, hs, hname⟩ := hg.exists_shortName hv
  have hnodup := hg.nodup
  rw [← hvars] at hnodup
  rw [Function.comp_apply, hname, List.inj_on_of_nodup_map hnodup h hs rfl]

theorem WellFormed.isomorphism_rename :
    Isomorphism g g.rename fun s => g.newNames.getD s s := by
  have hn := hg.renaming
  constructor
  case terminals => exact terminals_addRules ..
  case vars => exact hg.vars_rename
  case fixed => exact hn.fixed
  case injective => exact fun s t hs ht h => hn.eq_of_name_eq_of_symbols hs ht h
  case start => exact start_addRules ..
  case rules =>
    intro v hv b
    rw [hg.mem_rules_rename]
    constructor
    · rintro ⟨u, r, hr, hname, rfl⟩
      rw [hn.injective u (hg.mem_vars_of_rule hr) v hv hname] at hr
      exact ⟨r, hr, rfl⟩
    · rintro ⟨r, hr, rfl⟩
      exact ⟨v, r, hr, rfl, rfl⟩

/-- Renaming gives the same grammar under the first short names that are not terminals, and so
the same language. -/
theorem WellFormed.rename_exact :
    (∃ name, Isomorphism g g.rename name) ∧ FirstNames g.terminals g.rename.vars ∧
      ∀ w, g.rename.Derives w ↔ g.Derives w := by
  refine ⟨⟨_, hg.isomorphism_rename⟩, ?_, hg.equivalent_rename.derives⟩
  rw [hg.vars_rename, hg.map_newNames]
  exact firstNames_shortNames g g.vars

end Rename

/-- Two variables have each other's short names, and the third short name is a terminal. -/
def swapped : Grammar :=
  (Grammar.empty (.ofList ["C", "b"]) "B").addRules
    [("B", ["A", "C"]), ("A", ["b", "X"]), ("X", ["B"]), ("X", Rule.epsilon)]

theorem swapped_wellFormed : swapped.WellFormed := by
  apply wellFormed_of_rules <;> simp [epsilonSymbol]

theorem swapped_derives : swapped.Derives ["b", "C"] := by
  have hC : "C" ∈ swapped.terminals := by simp [swapped, Grammar.empty]
  have hb : "b" ∈ swapped.terminals := by simp [swapped, Grammar.empty]
  have hX : swapped.Yields ["X"] [] :=
    .of_rule (mem_rules_addRules.2 (.inl ⟨Rule.epsilon, by simp, by decide⟩)) (.epsilon .nil)
  have hA : swapped.Yields ["A"] ["b"] :=
    .of_rule (mem_rules_addRules.2 (.inl ⟨["b", "X"], by simp, by decide⟩)) (.terminal hb hX)
  have hstart : swapped.start = "B" := by simp [swapped, Grammar.empty]
  rw [Derives, hstart]
  exact .of_rule (mem_rules_addRules.2 (.inl ⟨["A", "C"], by simp, by decide⟩))
    (hA.append (.terminal hC .nil))

theorem rename_swapped :
    swapped.vars = ["B", "A", "X"] ∧ swapped.rename.vars = ["A", "B", "D"] ∧
      (∃ name, Isomorphism swapped swapped.rename name ∧ name "B" = "A" ∧ name "A" = "B" ∧
        ["B", "C"] ∈ swapped.rename.rules "A") ∧
      FirstNames swapped.terminals swapped.rename.vars ∧ swapped.rename.Derives ["b", "C"] := by
  obtain ⟨⟨name, hiso⟩, hfirst, hderives⟩ := swapped_wellFormed.rename_exact
  have hold : swapped.vars = ["B", "A", "X"] := by decide +kernel
  have hnew : swapped.rename.vars = ["A", "B", "D"] := by decide +kernel
  have hnames := hiso.vars
  rw [hold, hnew] at hnames
  simp only [List.map_cons, List.map_nil, List.cons.injEq] at hnames
  obtain ⟨hB, hA, -⟩ := hnames
  have hrule : ["A", "C"] ∈ swapped.rules "B" :=
    mem_rules_addRules.2 (.inl ⟨["A", "C"], by simp, by decide⟩)
  have hC : name "C" = "C" := hiso.fixed "C" (by simp [hold])
  refine ⟨hold, hnew, ⟨name, hiso, hB.symm, hA.symm, ?_⟩, hfirst,
    (hderives _).2 swapped_derives⟩
  rw [hB]
  exact (hiso.rules "B" (by simp [hold]) _).2 ⟨["A", "C"], hrule, by simp [← hA, hC]⟩

end FormalLanguages.Grammar
