import FormalLanguages.Proofs.Grammar.Equivalent
import FormalLanguages.Proofs.Grammar.ShortNames
import FormalLanguages.Proofs.Grammar.Trim

/-!
# Renaming keeps the language

The short names are different for different variables, and they are neither terminals nor the empty
word. A grammar whose variables are renamed in such a way has the same derivations.
-/

namespace FormalLanguages.Grammar

open Std

variable {g h : Grammar} {b r : Rule} {s u v : String} {w : List String} {name : String → String}

/-! ### New names for the variables -/

/-- Different variables get different names, which are not in use. -/
structure Renaming (g : Grammar) (name : String → String) : Prop where
  fixed : ∀ s, s ∉ g.vars → name s = s
  not_terminal : ∀ v ∈ g.vars, name v ∉ g.terminals
  ne_epsilon : ∀ v ∈ g.vars, name v ≠ epsilonSymbol
  injective : ∀ u ∈ g.vars, ∀ v ∈ g.vars, name u = name v → u = v

/-- Each variable has one short name, which is found. -/
theorem WellFormed.exists_shortName (hg : g.WellFormed) (hv : v ∈ g.vars) :
    ∃ s, (v, s) ∈ g.shortNames g.vars 0 ∧ ∀ d, g.newNames.getD v d = s := by
  have hfst := map_fst_shortNames g g.vars 0
  have hdistinct : (g.shortNames g.vars 0).Pairwise fun a b => ¬ compare a.1 b.1 = .eq := by
    have hnodup := hg.nodup
    rw [← hfst] at hnodup
    exact (List.pairwise_map.1 hnodup).imp fun hne heq => hne (LawfulEqCmp.compare_eq_iff_eq.1 heq)
  rw [← hfst] at hv
  obtain ⟨⟨v, s⟩, h, rfl⟩ := List.mem_map.1 hv
  exact ⟨s, h, fun d =>
    ExtTreeMap.getD_ofList_of_mem (LawfulEqCmp.compare_eq_iff_eq.2 rfl) hdistinct h⟩

theorem WellFormed.renaming (hg : g.WellFormed) : Renaming g fun s => g.newNames.getD s s := by
  constructor
  case fixed =>
    intro s hs
    apply ExtTreeMap.getD_ofList_of_contains_eq_false
    rw [map_fst_shortNames]
    simpa using hs
  case not_terminal =>
    intro v hv
    obtain ⟨s, h, hname⟩ := hg.exists_shortName hv
    simp only [hname]
    exact (mem_shortNames h).1
  case ne_epsilon =>
    intro v hv
    obtain ⟨s, h, hname⟩ := hg.exists_shortName hv
    obtain ⟨-, k, -, rfl⟩ := mem_shortNames h
    simp only [hname]
    exact ofList_columnName_ne_epsilon k
  case injective =>
    intro u hu v hv heq
    obtain ⟨s, h, hs⟩ := hg.exists_shortName hu
    obtain ⟨s', h', hs'⟩ := hg.exists_shortName hv
    simp only [hs, hs'] at heq
    subst heq
    exact congrArg Prod.fst (List.inj_on_of_nodup_map nodup_shortNames h h' rfl)

theorem WellFormed.exists_columnName (hg : g.WellFormed) (hv : v ∈ g.vars) :
    ∃ k, g.newNames.getD v v = String.ofList (columnName k) := by
  obtain ⟨s, h, hname⟩ := hg.exists_shortName hv
  obtain ⟨-, k, -, rfl⟩ := mem_shortNames h
  exact ⟨k, hname v⟩

/-! ### Derivations -/

namespace Renaming

variable (hn : Renaming g name)
include hn

theorem eq_of_name_eq (hs : s = epsilonSymbol ∨ s ∈ g.terminals) {a : String} (h : name a = s) :
    a = s := by
  by_cases ha : a ∈ g.vars
  · subst h
    rcases hs with hs | hs
    · exact absurd hs (hn.ne_epsilon a ha)
    · exact absurd hs (hn.not_terminal a ha)
  · rwa [hn.fixed a ha] at h

theorem eq_of_name_eq_name (hv : v ∈ g.vars) {a : String}
    (ha : a = epsilonSymbol ∨ a ∈ g.terminals ∨ a ∈ g.vars) (h : name a = name v) : a = v := by
  by_cases hvar : a ∈ g.vars
  · exact hn.injective a hvar v hv h
  · rw [hn.fixed a hvar] at h
    subst h
    rcases ha with ha | ha | ha
    · exact absurd ha (hn.ne_epsilon v hv)
    · exact absurd ha (hn.not_terminal v hv)
    · exact absurd ha hvar

/-- What the symbols yield is yielded by their new names. -/
theorem yields_map (hg : g.WellFormed) (terminals : h.terminals = g.terminals)
    (rules : ∀ v b, b ∈ h.rules v ↔ ∃ u r, r ∈ g.rules u ∧ name u = v ∧ r.map name = b)
    (hw : g.Yields r w) : h.Yields (r.map name) w := by
  induction hw with
  | nil => exact .nil
  | epsilon _ ih =>
    rw [List.map_cons, hn.fixed _ hg.epsilon_not_variable]
    exact .epsilon ih
  | @terminal t _ _ ht _ ih =>
    have hvar : t ∉ g.vars := fun hv => hg.disjoint t hv ht
    rw [List.map_cons, hn.fixed t hvar]
    exact .terminal (terminals ▸ ht) ih
  | rule hb _ _ ihb ihr => exact .rule ((rules _ _).2 ⟨_, _, hb, rfl, rfl⟩) ihb ihr

theorem yields_of_map (hg : g.WellFormed) (terminals : h.terminals = g.terminals)
    (rules : ∀ v b, b ∈ h.rules v ↔ ∃ u r, r ∈ g.rules u ∧ name u = v ∧ r.map name = b)
    (hr : ∀ s ∈ r, s = epsilonSymbol ∨ s ∈ g.terminals ∨ s ∈ g.vars)
    (hw : h.Yields (r.map name) w) : g.Yields r w := by
  generalize hb : r.map name = b at hw
  induction hw generalizing r with
  | nil =>
    rw [List.map_eq_nil_iff.1 hb]
    exact .nil
  | epsilon _ ih =>
    obtain ⟨a, r, rfl, ha, hb⟩ := List.map_eq_cons_iff.1 hb
    rw [hn.eq_of_name_eq (.inl rfl) ha]
    exact .epsilon (ih (fun s hs => hr s (List.mem_cons_of_mem _ hs)) hb)
  | terminal ht _ ih =>
    obtain ⟨a, r, rfl, ha, hb⟩ := List.map_eq_cons_iff.1 hb
    rw [terminals] at ht
    rw [hn.eq_of_name_eq (.inr ht) ha]
    exact .terminal ht (ih (fun s hs => hr s (List.mem_cons_of_mem _ hs)) hb)
  | rule hrule _ _ ihb ihr =>
    obtain ⟨a, r, rfl, ha, htail⟩ := List.map_eq_cons_iff.1 hb
    obtain ⟨v, c, hc, rfl, rfl⟩ := (rules _ _).1 hrule
    rw [hn.eq_of_name_eq_name (hg.mem_vars_of_rule hc) (hr a (List.mem_cons_self ..)) ha]
    exact .rule hc (ihb (fun s hs => hg.symbol_of_mem hc hs) rfl)
      (ihr (fun s hs => hr s (List.mem_cons_of_mem _ hs)) htail)

end Renaming

/-! ### The variables stay in their order -/

theorem addVariable_eq_self (hv : v ∈ g.vars) : g.addVariable v = g :=
  if_pos (isVariable_iff.2 hv)

theorem foldl_addVariable_eq_self {vs : List String} (hvs : ∀ v ∈ vs, v ∈ g.vars) :
    vs.foldl addVariable g = g := by
  induction vs with
  | nil => rfl
  | cons v vs ih =>
    rw [List.foldl_cons, addVariable_eq_self (hvs v (List.mem_cons_self ..))]
    exact ih fun u hu => hvs u (List.mem_cons_of_mem v hu)

/-- A rule of known symbols adds no variable. -/
theorem vars_addRule_of_known (hv : v ∈ g.vars)
    (hr : ∀ s ∈ r.collapse, s = epsilonSymbol ∨ g.IsSymbol s) : (g.addRule v r).vars = g.vars := by
  show (List.foldl addVariable g _).vars = g.vars
  rw [foldl_addVariable_eq_self]
  intro s hs
  rcases List.mem_cons.1 hs with rfl | hs
  · exact hv
  · obtain ⟨hs, hunknown⟩ := List.mem_filter.1 hs
    rcases hr s hs with rfl | ht | hs
    · simp at hunknown
    · rw [isTerminal_iff.2 ht] at hunknown
      simp at hunknown
    · exact hs

theorem vars_addRules_of_known {rules : List (String × Rule)}
    (h : ∀ rule ∈ rules, rule.1 ∈ g.vars ∧
      ∀ s ∈ rule.2.collapse, s = epsilonSymbol ∨ g.IsSymbol s) :
    (g.addRules rules).vars = g.vars := by
  induction rules generalizing g with
  | nil => rfl
  | cons rule rules ih =>
    obtain ⟨hv, hr⟩ := h rule (List.mem_cons_self ..)
    have hvars := vars_addRule_of_known hv hr
    show ((g.addRule rule.1 rule.2).addRules rules).vars = g.vars
    rw [ih, hvars]
    intro other hother
    rw [hvars]
    simp only [IsSymbol, hvars, terminals_addRule]
    exact h other (List.mem_cons_of_mem _ hother)

/-! ### The renamed grammar -/

section Rename

variable (hg : g.WellFormed)
include hg

theorem WellFormed.collapse_map (hn : Renaming g name) (hr : r ∈ g.rules v) :
    Rule.collapse (r.map name) = r.map name := by
  by_cases hε : r = Rule.epsilon
  · rw [hε, Rule.epsilon, List.map_singleton, hn.fixed _ hg.epsilon_not_variable]
    exact Rule.collapse_epsilon
  · apply Rule.collapse_eq_self
    · simpa using hg.ne_nil hr
    · intro hmem
      obtain ⟨a, ha, heq⟩ := List.mem_map.1 hmem
      exact hg.epsilon_not_mem hr hε (hn.eq_of_name_eq (.inl rfl) heq ▸ ha)

theorem WellFormed.mem_rules_rename : b ∈ g.rename.rules v ↔
    ∃ u r, r ∈ g.rules u ∧ g.newNames.getD u u = v ∧ (r.map fun s => g.newNames.getD s s) = b := by
  have hcollapse := fun u r (hr : r ∈ g.rules u) => hg.collapse_map hg.renaming hr
  rw [rename, mem_rules_addRules, rules_of_no_productions rfl]
  simp only [ExtTreeSet.not_mem_empty, or_false, List.mem_flatMap, List.mem_map,
    Prod.exists, Prod.mk.injEq, ExtTreeSet.mem_toList]
  constructor
  · rintro ⟨_, ⟨u, rs, hrs, r, hr, rfl, rfl⟩, rfl⟩
    have hr := mem_rules_iff.2 ⟨rs, hrs, hr⟩
    exact ⟨u, r, hr, rfl, (hcollapse u r hr).symm⟩
  · rintro ⟨u, r, hr, rfl, rfl⟩
    obtain ⟨rs, hrs, hmem⟩ := mem_rules_iff.1 hr
    exact ⟨_, ⟨u, rs, hrs, r, hmem, rfl, rfl⟩, hcollapse u r hr⟩

/-- The variables are the new names of the old ones, in the same order. -/
theorem WellFormed.vars_rename : g.rename.vars = g.vars.map fun v => g.newNames.getD v v := by
  have hn := hg.renaming
  rw [Grammar.rename, vars_addRules_of_known]
  · rfl
  intro rule hrule
  obtain ⟨⟨v, rs⟩, hrs, hmap⟩ := List.mem_flatMap.1 hrule
  obtain ⟨r, hr, rfl⟩ := List.mem_map.1 hmap
  have hr := mem_rules_iff.2 ⟨rs, hrs, ExtTreeSet.mem_toList.1 hr⟩
  have hnamed : ∀ u ∈ g.vars, g.newNames.getD u u ∈ g.vars.map fun s => g.newNames.getD s s :=
    fun u hu => List.mem_map_of_mem hu
  constructor
  · exact hnamed v (hg.mem_vars_of_rule hr)
  · intro s hs
    rw [hg.collapse_map hn hr] at hs
    obtain ⟨a, ha, rfl⟩ := List.mem_map.1 hs
    rcases hg.symbol_of_mem hr ha with rfl | ht | hvar
    · exact .inl (hn.fixed _ hg.epsilon_not_variable)
    · rw [hn.fixed a fun hv => hg.disjoint a hv ht]
      exact .inr (.inl ht)
    · exact .inr (.inr (hnamed a hvar))

theorem WellFormed.mem_vars_rename :
    u ∈ g.rename.vars ↔ ∃ v ∈ g.vars, g.newNames.getD v v = u := by
  rw [hg.vars_rename, List.mem_map]

theorem WellFormed.rename : g.rename.WellFormed := by
  have hn := hg.renaming
  apply WellFormed.addRules
  · constructor
    case nodup => exact List.Nodup.map_on hn.injective hg.nodup
    case disjoint =>
      intro v hv
      have hv : v ∈ g.vars.map fun s => g.newNames.getD s s := hv
      obtain ⟨u, hu, rfl⟩ := List.mem_map.1 hv
      exact hn.not_terminal u hu
    case epsilon_not_terminal => exact hg.epsilon_not_terminal
    case epsilon_not_variable =>
      intro hv
      have hv : epsilonSymbol ∈ g.vars.map fun s => g.newNames.getD s s := hv
      obtain ⟨u, hu, heq⟩ := List.mem_map.1 hv
      exact hn.ne_epsilon u hu heq
    case entry_mem => exact fun v hv => absurd hv ExtTreeMap.not_mem_empty
    case rule_ok =>
      intro v r hr
      rw [rules_of_no_productions rfl] at hr
      exact absurd hr ExtTreeSet.not_mem_empty
  · intro rule hrule
    obtain ⟨⟨u, rs⟩, hrs, hmap⟩ := List.mem_flatMap.1 hrule
    obtain ⟨r, hr, rfl⟩ := List.mem_map.1 hmap
    have hu := hg.mem_vars_of_rule (mem_rules_iff.2 ⟨rs, hrs, ExtTreeSet.mem_toList.1 hr⟩)
    exact ⟨hn.not_terminal u hu, hn.ne_epsilon u hu⟩

theorem WellFormed.equivalent_rename : g.Equivalent g.rename := by
  have hn := hg.renaming
  have hterm : g.rename.terminals = g.terminals := terminals_addRules ..
  have hstart : [g.rename.start] = [g.start].map fun s => g.newNames.getD s s :=
    congrArg (fun s => [s]) (start_addRules ..)
  apply Equivalent.mk hg.rename hterm
  intro w
  rw [Derives, Derives, hstart]
  constructor
  · apply hn.yields_of_map hg hterm fun v b => hg.mem_rules_rename
    intro s hs
    rw [List.mem_singleton.1 hs]
    exact .inr (.inr (start_mem_vars g))
  · exact hn.yields_map hg hterm fun v b => hg.mem_rules_rename

theorem WellFormed.equivalent_trim_rename : g.Equivalent g.trim.rename :=
  hg.equivalent_trim.trans hg.equivalent_trim.wellFormed.equivalent_rename

end Rename

end FormalLanguages.Grammar
