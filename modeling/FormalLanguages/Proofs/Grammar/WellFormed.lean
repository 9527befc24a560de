import FormalLanguages.Proofs.Grammar.Names
import FormalLanguages.Proofs.Grammar.Yields

/-!
# Well-formed grammars

In a well-formed grammar the empty word is no symbol, so that it can be left out of rules. The
operations that grammars are changed with keep them well-formed.
-/

namespace FormalLanguages

open Std

namespace Rule

theorem mem_collapse {r : Rule} {s : String} (h : s ∈ r.collapse) :
    s ∈ r ∧ s ≠ epsilonSymbol ∨ r.collapse = epsilon := by
  unfold collapse at h ⊢
  simp only at h ⊢
  split at h
  · next hnil => exact .inr (if_pos hnil)
  · exact .inl (by simpa using List.mem_filter.1 h)

theorem collapse_ne_nil (r : Rule) : r.collapse ≠ [] := by
  unfold collapse
  simp only
  split
  · exact List.cons_ne_nil _ _
  · assumption

/-- A rule without the empty word stays as it is. -/
theorem collapse_eq_self {r : Rule} (hne : r ≠ []) (h : epsilonSymbol ∉ r) : r.collapse = r := by
  have hkept : r.filter (· ≠ epsilonSymbol) = r :=
    List.filter_eq_self.2 fun s hs => by simpa using fun (e : s = epsilonSymbol) => h (e ▸ hs)
  simp only [collapse, hkept, hne, if_false]

@[simp] theorem collapse_epsilon : epsilon.collapse = epsilon := by decide

theorem filter_collapse (r : Rule) :
    r.collapse.filter (· ≠ epsilonSymbol) = r.filter (· ≠ epsilonSymbol) := by
  unfold collapse
  simp only
  split
  · next h => rw [h]; decide
  · simp

theorem collapse_congr {r s : Rule}
    (h : r.filter (· ≠ epsilonSymbol) = s.filter (· ≠ epsilonSymbol)) :
    r.collapse = s.collapse := by
  simp only [collapse, h]

@[simp] theorem collapse_collapse (r : Rule) : r.collapse.collapse = r.collapse :=
  collapse_congr (filter_collapse r)

theorem collapse_eq_epsilon_iff {r : Rule} :
    r.collapse = epsilon ↔ ∀ s ∈ r, s = epsilonSymbol := by
  constructor
  · intro h
    have hf := filter_collapse r
    rw [h] at hf
    have hnil : r.filter (· ≠ epsilonSymbol) = [] := hf.symm.trans (by decide)
    simpa using List.filter_eq_nil_iff.1 hnil
  · intro h
    have hnil : r.filter (· ≠ epsilonSymbol) = [] := List.filter_eq_nil_iff.2 (by simpa using h)
    simp only [collapse, hnil, if_true]

end Rule

namespace Grammar

variable {g : Grammar} {r : Rule} {t u v : String} {w : List String}

theorem mem_vars_iff : u ∈ g.vars ↔ u = g.start ∨ u ∈ g.others := List.mem_cons

@[simp] theorem start_mem_vars (g : Grammar) : g.start ∈ g.vars := List.mem_cons_self ..

theorem mem_vars_withStart (hv : v ∈ g.vars) : u ∈ (g.withStart v).vars ↔ u ∈ g.vars := by
  simp only [withStart, vars, List.mem_cons, List.mem_filter, decide_eq_true_eq] at hv ⊢
  grind

theorem mem_vars_retain {keep : String → Bool} :
    u ∈ (g.retain keep).vars ↔ u = g.start ∨ u ∈ g.others ∧ keep u := by
  simp [retain, vars]

theorem mem_vars_dropVariable (hv : v ≠ g.start) :
    u ∈ (g.dropVariable v).vars ↔ u ∈ g.vars ∧ u ≠ v := by
  simp only [dropVariable, vars, List.mem_cons, List.mem_filter, decide_eq_true_eq]
  grind

theorem mem_vars_addRules {rules : List (String × Rule)} : u ∈ (g.addRules rules).vars ↔
    u ∈ g.vars ∨ ∃ v r, (v, r) ∈ rules ∧
      (u = v ∨ u ∈ r.collapse ∧ u ≠ epsilonSymbol ∧ u ∉ g.terminals) := by
  induction rules generalizing g with
  | nil => simp [addRules]
  | cons rule rules ih =>
    have hcons : g.addRules (rule :: rules) = (g.addRule rule.1 rule.2).addRules rules := rfl
    rw [hcons, ih, mem_vars_addRule, terminals_addRule]
    grind

def IsRule (g : Grammar) (r : Rule) : Prop :=
  r = Rule.epsilon ∨ r ≠ [] ∧ ∀ s ∈ r, g.IsSymbol s

/-- Only the symbols of a rule matter. -/
theorem IsRule.imp {h : Grammar} (hr : g.IsRule r) (hsym : ∀ s ∈ r, g.IsSymbol s → h.IsSymbol s) :
    h.IsRule r := by
  rcases hr with hε | ⟨hne, hr⟩
  · exact .inl hε
  · exact .inr ⟨hne, fun s hs => hsym s hs (hr s hs)⟩

theorem isRule_collapse (h : ∀ s ∈ r, s = epsilonSymbol ∨ g.IsSymbol s) : g.IsRule r.collapse := by
  by_cases hε : r.collapse = Rule.epsilon
  · exact .inl hε
  · refine .inr ⟨r.collapse_ne_nil, fun s hs => ?_⟩
    obtain ⟨hs, hne⟩ := (Rule.mem_collapse hs).resolve_right hε
    exact (h s hs).resolve_left hne

theorem mem_productions_of_rule (hr : r ∈ g.rules v) : v ∈ g.productions := by
  unfold rules at hr
  apply Decidable.byContradiction
  intro hv
  rw [ExtTreeMap.getD_eq_fallback hv] at hr
  exact absurd hr ExtTreeSet.not_mem_empty

namespace WellFormed

theorem epsilon_not_symbol (hg : g.WellFormed) : ¬ g.IsSymbol epsilonSymbol :=
  fun h => h.elim hg.epsilon_not_terminal hg.epsilon_not_variable

theorem ne_variable (hg : g.WellFormed) (ht : t = epsilonSymbol ∨ t ∈ g.terminals)
    (hv : v ∈ g.vars) : t ≠ v := by
  rintro rfl
  rcases ht with rfl | ht
  · exact hg.epsilon_not_variable hv
  · exact hg.disjoint t hv ht

theorem ne_epsilon (hg : g.WellFormed) (hv : v ∈ g.vars) : v ≠ epsilonSymbol :=
  fun e => hg.epsilon_not_variable (e ▸ hv)

theorem ne_start (hg : g.WellFormed) (hv : v ∈ g.others) : v ≠ g.start := by
  rintro rfl
  exact (List.nodup_cons.1 hg.nodup).1 hv

theorem mem_vars_of_rule (hg : g.WellFormed) (hr : r ∈ g.rules v) : v ∈ g.vars :=
  hg.entry_mem v (mem_productions_of_rule hr)

theorem rules_eq_empty (hg : g.WellFormed) (hv : v ∉ g.vars) : g.rules v = ∅ :=
  ExtTreeMap.getD_eq_fallback fun h => hv (hg.entry_mem v h)

theorem isRule (hg : g.WellFormed) (hr : r ∈ g.rules v) : g.IsRule r := hg.rule_ok v r hr

theorem ne_nil (hg : g.WellFormed) (hr : r ∈ g.rules v) : r ≠ [] := by
  rcases hg.isRule hr with rfl | ⟨hne, -⟩
  · exact List.cons_ne_nil _ _
  · exact hne

theorem symbol_of_mem (hg : g.WellFormed) (hr : r ∈ g.rules v) {s : String} (hs : s ∈ r) :
    s = epsilonSymbol ∨ g.IsSymbol s := by
  rcases hg.isRule hr with rfl | ⟨-, h⟩
  · exact .inl (List.mem_singleton.1 hs)
  · exact .inr (h s hs)

theorem epsilon_not_mem (hg : g.WellFormed) (hr : r ∈ g.rules v) (hne : r ≠ Rule.epsilon) :
    epsilonSymbol ∉ r := fun hs =>
  hg.epsilon_not_symbol (((hg.isRule hr).resolve_left hne).2 _ hs)

theorem collapse_eq (hg : g.WellFormed) (hr : r ∈ g.rules v) : r.collapse = r := by
  by_cases hε : r = Rule.epsilon
  · rw [hε, Rule.collapse_epsilon]
  · exact Rule.collapse_eq_self (hg.ne_nil hr) (hg.epsilon_not_mem hr hε)

/-! ### Yields in a well-formed grammar -/

theorem yields_epsilon_cons_iff (hg : g.WellFormed) :
    g.Yields (epsilonSymbol :: r) w ↔ g.Yields r w := by
  refine ⟨fun h => ?_, .epsilon⟩
  cases h with
  | epsilon h => exact h
  | terminal ht _ => exact absurd ht hg.epsilon_not_terminal
  | rule hb _ _ => exact absurd (hg.mem_vars_of_rule hb) hg.epsilon_not_variable

@[simp] theorem yields_epsilon_iff (hg : g.WellFormed) : g.Yields Rule.epsilon w ↔ w = [] :=
  hg.yields_epsilon_cons_iff.trans yields_nil_iff

theorem yields_terminal_iff (hg : g.WellFormed) (ht : t ∈ g.terminals) :
    g.Yields [t] w ↔ w = [t] := by
  constructor
  · intro h
    cases h with
    | epsilon _ => exact absurd ht hg.epsilon_not_terminal
    | terminal _ h => rw [yields_nil_iff.1 h]
    | rule hb _ _ => exact absurd ht (hg.disjoint _ (hg.mem_vars_of_rule hb))
  · rintro rfl
    exact .terminal ht .nil

theorem yields_variable_iff (hg : g.WellFormed) (hv : v ∈ g.vars) :
    g.Yields [v] w ↔ ∃ b ∈ g.rules v, g.Yields b w := by
  constructor
  · intro h
    cases h with
    | epsilon _ => exact absurd hv hg.epsilon_not_variable
    | terminal ht _ => exact absurd ht (hg.disjoint _ hv)
    | rule hb hw h =>
      rw [yields_nil_iff.1 h, List.append_nil]
      exact ⟨_, hb, hw⟩
  · rintro ⟨b, hb, hw⟩
    exact .of_rule hb hw

theorem yields_filter_iff (hg : g.WellFormed) :
    g.Yields (r.filter (· ≠ epsilonSymbol)) w ↔ g.Yields r w := by
  induction r generalizing w with
  | nil => rfl
  | cons s r ih =>
    by_cases hs : s = epsilonSymbol
    · rw [List.filter_cons_of_neg (by simpa using hs), ih, hs, hg.yields_epsilon_cons_iff]
    · rw [List.filter_cons_of_pos (by simpa using hs)]
      constructor
      · intro h
        obtain ⟨x, y, rfl, hx, hy⟩ := h.exists_of_cons
        exact hx.append (ih.1 hy)
      · intro h
        obtain ⟨x, y, rfl, hx, hy⟩ := h.exists_of_cons
        exact hx.append (ih.2 hy)

@[simp] theorem yields_collapse_iff (hg : g.WellFormed) :
    g.Yields r.collapse w ↔ g.Yields r w := by
  rw [← hg.yields_filter_iff (r := r)]
  unfold Rule.collapse
  simp only
  split
  · next h => rw [h, hg.yields_epsilon_iff, yields_nil_iff]
  · rfl

end WellFormed

/-! ### Operations -/

theorem rules_of_no_productions (h : g.productions = ∅) : g.rules v = ∅ := by
  simp [rules, h]

@[simp] theorem rules_empty {terminals : ExtTreeSet String} {start : String} :
    (empty terminals start).rules v = ∅ := rules_of_no_productions rfl

theorem wellFormed_empty {terminals : ExtTreeSet String} {start : String}
    (hε : epsilonSymbol ∉ terminals) (hstart : start ∉ terminals) (hne : start ≠ epsilonSymbol) :
    (empty terminals start).WellFormed := by
  refine ⟨by simp [vars, empty], ?_, hε, ?_, ?_, ?_⟩
  · intro v hv
    exact List.mem_singleton.1 hv ▸ hstart
  · exact fun h => hne (List.mem_singleton.1 h).symm
  · exact fun v hv => absurd hv ExtTreeMap.not_mem_empty
  · intro v r hr
    rw [rules_empty] at hr
    exact absurd hr ExtTreeSet.not_mem_empty

namespace WellFormed

theorem empty (hg : g.WellFormed) : (empty g.terminals g.start).WellFormed :=
  wellFormed_empty hg.epsilon_not_terminal (hg.disjoint _ (start_mem_vars g))
    (hg.ne_epsilon (start_mem_vars g))

/-- Some variables may be left out, and the rules change. -/
theorem of_subset {h : Grammar} (hg : g.WellFormed) (terminals : h.terminals = g.terminals)
    (nodup : h.vars.Nodup) (subset : ∀ v ∈ h.vars, v ∈ g.vars)
    (entries : ∀ v ∈ h.productions, v ∈ h.vars) (isRule : ∀ v, ∀ r ∈ h.rules v, h.IsRule r) :
    h.WellFormed where
  nodup := nodup
  disjoint v hv := by
    rw [terminals]
    exact hg.disjoint v (subset v hv)
  epsilon_not_terminal := terminals ▸ hg.epsilon_not_terminal
  epsilon_not_variable hv := hg.epsilon_not_variable (subset _ hv)
  entry_mem := entries
  rule_ok := isRule

/-- A change of the rules alone. -/
theorem of_rules {h : Grammar} (hg : g.WellFormed) (terminals : h.terminals = g.terminals)
    (vars : h.vars = g.vars) (entries : ∀ v ∈ h.productions, v ∈ g.vars)
    (isRule : ∀ v, ∀ r ∈ h.rules v, g.IsRule r) : h.WellFormed := by
  apply hg.of_subset terminals (vars ▸ hg.nodup) (fun v hv => vars ▸ hv) (vars ▸ entries)
  intro v r hr
  apply (isRule v r hr).imp
  intro s _ hsym
  rwa [IsSymbol, vars, terminals]

theorem setRules (hg : g.WellFormed) (hv : v ∈ g.vars) {rs : RuleSet}
    (hrs : ∀ r ∈ rs, g.IsRule r) : (g.setRules v rs).WellFormed := by
  apply hg.of_rules (h := g.setRules v rs) rfl rfl
  · intro u hu
    rcases ExtTreeMap.mem_insert.1 hu with hu | hu
    · exact LawfulEqCmp.compare_eq_iff_eq.1 hu ▸ hv
    · exact hg.entry_mem u hu
  · intro u r hr
    rw [rules_setRules] at hr
    split at hr
    · exact hrs r hr
    · exact hg.isRule hr

theorem mapRules (hg : g.WellFormed) {f : String → Rule → List Rule}
    (hf : ∀ v, ∀ r ∈ g.rules v, ∀ c ∈ f v r, ∀ s ∈ c, s = epsilonSymbol ∨ g.IsSymbol s) :
    (g.mapRules f).WellFormed := by
  refine hg.of_rules rfl rfl (fun v hv => hg.entry_mem v ?_) ?_
  · simpa [Grammar.mapRules] using hv
  · intro v b hb
    obtain ⟨r, hr, c, hc, rfl⟩ := mem_rules_mapRules.1 hb
    exact isRule_collapse (hf v r hr c hc)

/-- Variables can be left out that do not occur in the rules of those that are kept. -/
theorem retain (hg : g.WellFormed) {keep : String → Bool}
    (hkeep : ∀ v, (v = g.start ∨ keep v) → ∀ r ∈ g.rules v, ∀ s ∈ r, s ∈ g.vars →
      s = g.start ∨ keep s) : (g.retain keep).WellFormed := by
  have hsub : (g.retain keep).vars.Sublist g.vars := List.filter_sublist.cons_cons _
  apply hg.of_subset (h := g.retain keep) rfl (hg.nodup.sublist hsub) (fun v hv => hsub.subset hv)
  · intro v hv
    have hv := (ExtTreeMap.mem_filter.1 hv).2
    simpa [mem_vars_retain] using hv
  · intro v r hr
    rw [rules_retain] at hr
    split at hr
    · next hv =>
      apply (hg.isRule hr).imp
      intro s hs hsym
      refine hsym.imp_right fun hvar => mem_vars_retain.2 ?_
      rcases hkeep v (hv.imp_right And.right) r hr s hs hvar with rfl | hk
      · exact .inl rfl
      · exact (mem_vars_iff.1 hvar).imp_right fun ho => ⟨ho, hk⟩
    · exact absurd hr ExtTreeSet.not_mem_empty

theorem dropVariable (hg : g.WellFormed) (hv : v ≠ g.start)
    (hrules : ∀ u ≠ v, ∀ r ∈ g.rules u, v ∉ r) : (g.dropVariable v).WellFormed := by
  have hsub : (g.dropVariable v).vars.Sublist g.vars := List.filter_sublist.cons_cons _
  apply hg.of_subset (h := g.dropVariable v) rfl (hg.nodup.sublist hsub)
    (fun v hv => hsub.subset hv)
  · intro u hu
    obtain ⟨hne, hu⟩ := ExtTreeMap.mem_erase.1 hu
    apply (mem_vars_dropVariable hv).2
    refine ⟨hg.entry_mem u hu, fun e => ?_⟩
    exact hne (LawfulEqCmp.compare_eq_iff_eq.2 e.symm)
  · intro u r hr
    rw [rules_dropVariable] at hr
    split at hr
    · exact absurd hr ExtTreeSet.not_mem_empty
    · next hu =>
      apply (hg.isRule hr).imp
      intro s hs hsym
      apply hsym.imp_right
      intro hvar
      exact (mem_vars_dropVariable hv).2 ⟨hvar, fun e => hrules u hu r hr (e ▸ hs)⟩

theorem addVariable (hg : g.WellFormed) (ht : v ∉ g.terminals) (hv : v ≠ epsilonSymbol) :
    (g.addVariable v).WellFormed := by
  unfold Grammar.addVariable
  split
  · exact hg
  · next hnew =>
    have hmem : ∀ s, s ∈ ({ g with others := g.others ++ [v] } : Grammar).vars ↔
        s ∈ g.vars ∨ s = v := by
      intro s
      simp [vars, or_assoc]
    have hnodup : ({ g with others := g.others ++ [v] } : Grammar).vars.Nodup := by
      have hnew : v ∉ g.vars := by simpa using hnew
      show (g.vars ++ [v]).Nodup
      rw [List.nodup_append]
      refine ⟨hg.nodup, by simp, fun a ha b hb e => ?_⟩
      exact hnew (List.mem_singleton.1 hb ▸ e ▸ ha)
    refine ⟨hnodup, ?_, hg.epsilon_not_terminal, ?_, ?_, ?_⟩
    · intro s hs
      rcases (hmem s).1 hs with hs | rfl
      · exact hg.disjoint s hs
      · exact ht
    · intro hs
      rcases (hmem _).1 hs with hs | rfl
      · exact hg.epsilon_not_variable hs
      · exact hv rfl
    · intro u hu
      exact (hmem u).2 (.inl (hg.entry_mem u hu))
    · intro u r hr
      apply (hg.isRule hr).imp
      intro s _ hsym
      exact hsym.imp_right fun hs => (hmem s).2 (.inl hs)

theorem foldl_addVariable (hg : g.WellFormed) (vs : List String)
    (hvs : ∀ v ∈ vs, v ∉ g.terminals ∧ v ≠ epsilonSymbol) :
    (vs.foldl Grammar.addVariable g).WellFormed := by
  induction vs generalizing g with
  | nil => exact hg
  | cons v vs ih =>
    obtain ⟨ht, hε⟩ := hvs v (List.mem_cons_self ..)
    apply ih (hg.addVariable ht hε)
    intro u hu
    rw [terminals_addVariable]
    exact hvs u (List.mem_cons_of_mem v hu)

/-- The symbols of a new rule become terminals or variables. -/
theorem addRule (hg : g.WellFormed) (ht : v ∉ g.terminals) (hv : v ≠ epsilonSymbol) :
    (g.addRule v r).WellFormed := by
  have hvars := hg.foldl_addVariable
    (v :: r.collapse.filter fun s => s ≠ epsilonSymbol && !g.isTerminal s) (by
      intro u hu
      rcases List.mem_cons.1 hu with rfl | hu
      · exact ⟨ht, hv⟩
      · have hu := (List.mem_filter.1 hu).2
        simp only [isTerminal] at hu
        grind)
  refine hvars.of_rules rfl rfl ?_ ?_
  · intro u hu
    rw [mem_vars_foldl_addVariable]
    rcases ExtTreeMap.mem_insert.1 hu with hu | hu
    · exact .inl (LawfulEqCmp.compare_eq_iff_eq.1 hu ▸ List.mem_cons_self ..)
    · rw [productions_foldl_addVariable] at hu
      exact .inr (hg.entry_mem u hu)
  · intro u b hb
    rcases mem_rules_addRule.1 hb with ⟨rfl, rfl⟩ | hb
    · by_cases hε : r.collapse = Rule.epsilon
      · exact .inl hε
      · refine .inr ⟨r.collapse_ne_nil, fun s hs => ?_⟩
        have hne := ((Rule.mem_collapse hs).resolve_right hε).2
        rw [IsSymbol, terminals_foldl_addVariable, mem_vars_foldl_addVariable]
        by_cases hst : s ∈ g.terminals
        · exact .inl hst
        · exact .inr (.inl (by simp [hs, hne, hst, isTerminal]))
    · apply (hg.isRule hb).imp
      intro s _ hsym
      rw [IsSymbol, terminals_foldl_addVariable, mem_vars_foldl_addVariable]
      exact hsym.imp_right .inr

theorem addRules (hg : g.WellFormed) {rules : List (String × Rule)}
    (h : ∀ rule ∈ rules, rule.1 ∉ g.terminals ∧ rule.1 ≠ epsilonSymbol) :
    (g.addRules rules).WellFormed := by
  induction rules generalizing g with
  | nil => exact hg
  | cons rule rules ih =>
    obtain ⟨ht, hε⟩ := h rule (List.mem_cons_self ..)
    apply ih (hg.addRule ht hε)
    intro rule hrule
    rw [terminals_addRule]
    exact h rule (List.mem_cons_of_mem _ hrule)

theorem withStart (hg : g.WellFormed) (hv : v ∈ g.vars) : (g.withStart v).WellFormed := by
  have hmem : ∀ s, s ∈ (g.withStart v).vars ↔ s ∈ g.vars := fun s => mem_vars_withStart hv
  have hnodup : (g.withStart v).vars.Nodup := by
    refine List.nodup_cons.2 ⟨fun h => ?_, hg.nodup.sublist List.filter_sublist⟩
    simp [Grammar.withStart] at h
  apply hg.of_subset (h := g.withStart v) rfl hnodup (fun s hs => (hmem s).1 hs)
  · exact fun s hs => (hmem s).2 (hg.entry_mem s hs)
  · intro u r hr
    apply (hg.isRule hr).imp
    intro s _ hsym
    exact hsym.imp_right (hmem s).2

end WellFormed

/-- What is made of rules is well formed if no terminal and no epsilon is given rules. -/
theorem wellFormed_of_rules {terminals : ExtTreeSet String} {start : String}
    {rules : List (String × Rule)} (hε : epsilonSymbol ∉ terminals)
    (hstart : start ∉ terminals ∧ start ≠ epsilonSymbol)
    (hrules : ∀ rule ∈ rules, rule.1 ∉ terminals ∧ rule.1 ≠ epsilonSymbol) :
    ((Grammar.empty terminals start).addRules rules).WellFormed :=
  (wellFormed_empty hε hstart.1 hstart.2).addRules hrules

/-! ### Examples -/

/-- The words of equally many `a` and then `b`, with two variables that are rules of each
other. -/
def nested : Grammar :=
  ((((Grammar.empty (.ofList ["a", "b"]) "S").addRule "S" ["a", "S", "b"]).addRule "S"
    Rule.epsilon).addRule "S" ["A"]).addRule "A" ["S"]

theorem nested_wellFormed : nested.WellFormed := by
  show (Grammar.addRules _
    [("S", ["a", "S", "b"]), ("S", Rule.epsilon), ("S", ["A"]), ("A", ["S"])]).WellFormed
  apply wellFormed_of_rules <;> simp [epsilonSymbol]

theorem nested_derives (n : Nat) :
    nested.Derives (List.replicate n "a" ++ List.replicate n "b") := by
  have hstep : ["a", "S", "b"] ∈ nested.rules "S" := by
    simp [nested, mem_rules_addRule, Rule.collapse, epsilonSymbol]
  have hε : Rule.epsilon ∈ nested.rules "S" := by
    simp [nested, mem_rules_addRule]
  have ha : "a" ∈ nested.terminals := by simp [nested, Grammar.empty]
  have hb : "b" ∈ nested.terminals := by simp [nested, Grammar.empty]
  induction n with
  | zero => exact .of_rule hε (.epsilon .nil)
  | succ n ih =>
    have h := Yields.of_rule hstep
      (.terminal ha (Yields.append (s := ["b"]) ih (.terminal hb .nil)))
    have hstart : nested.start = "S" := by simp [nested, Grammar.empty]
    rw [List.replicate_succ, List.replicate_succ', Derives, hstart]
    simpa using h

/-- The words of `a` alone, with a variable `N` for the empty word, a variable `D` that derives
nothing because of a variable `E` without rules, and a variable `F` out of reach. -/
def mixed : Grammar :=
  (Grammar.empty (.ofList ["a", "b"]) "S").addRules
    [("S", ["a", "N", "S"]), ("S", ["N"]), ("S", ["D"]), ("S", ["S"]), ("N", ["N", "N"]),
      ("N", Rule.epsilon), ("D", ["b", "E"]), ("F", ["a"])]

theorem mixed_wellFormed : mixed.WellFormed := by
  apply wellFormed_of_rules <;> simp [epsilonSymbol]

theorem mixed_derives (n : Nat) : mixed.Derives (List.replicate n "a") := by
  have hstep : ["a", "N", "S"] ∈ mixed.rules "S" :=
    mem_rules_addRules.2 (.inl ⟨["a", "N", "S"], by simp, by decide⟩)
  have hlast : ["N"] ∈ mixed.rules "S" := mem_rules_addRules.2 (.inl ⟨["N"], by simp, by decide⟩)
  have hε : Rule.epsilon ∈ mixed.rules "N" :=
    mem_rules_addRules.2 (.inl ⟨Rule.epsilon, by simp, by decide⟩)
  have ha : "a" ∈ mixed.terminals := by simp [mixed, Grammar.empty]
  have hN : mixed.Yields ["N"] [] := .of_rule hε (.epsilon .nil)
  have hstart : mixed.start = "S" := by simp [mixed, Grammar.empty]
  rw [Derives, hstart]
  induction n with
  | zero => exact .of_rule hlast hN
  | succ n ih => exact .of_rule hstep (.terminal ha (hN.append ih))

end Grammar

end FormalLanguages
