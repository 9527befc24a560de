import FormalLanguages.Grammar.Trim
import FormalLanguages.Proofs.Grammar.Analysis

/-!
# Trimming keeps the language

The variables and rules that are removed take no part in a derivation of a word from the start.
Every variable that is left takes part in one, unless the grammar derives nothing: then only its
start is left.
-/

namespace FormalLanguages.Grammar

open Std Relation

variable {g : Grammar} {b r : Rule} {u v : String} {w : List String}

theorem mem_rules_retain {keep : String → Bool} :
    b ∈ (g.retain keep).rules v ↔ (v = g.start ∨ v ∈ g.others ∧ keep v) ∧ b ∈ g.rules v := by
  rw [rules_retain]
  split
  · next h => simp [h]
  · next h => simp [h]

theorem mem_vars_of_mem_retain {keep : String → Bool} (hv : v ∈ (g.retain keep).vars) :
    v ∈ g.vars :=
  (mem_vars_retain.1 hv).elim (fun e => e ▸ start_mem_vars g) fun hv => mem_vars_iff.2 (.inr hv.1)

theorem WellFormed.mem_rules_filter (hg : g.WellFormed) {keep : String → Rule → Bool} :
    b ∈ (g.mapRules fun v r => if keep v r then [r] else []).rules v ↔
      b ∈ g.rules v ∧ keep v b := by
  rw [mem_rules_mapRules]
  constructor
  · rintro ⟨r, hr, c, hc, rfl⟩
    split at hc
    · next hk =>
      obtain rfl := List.mem_singleton.1 hc
      rw [hg.collapse_eq hr]
      exact ⟨hr, hk⟩
    · cases hc
  · rintro ⟨hb, hk⟩
    exact ⟨b, hb, b, by simp [hk], hg.collapse_eq hb⟩

theorem WellFormed.filter (hg : g.WellFormed) (keep : String → Rule → Bool) :
    (g.mapRules fun v r => if keep v r then [r] else []).WellFormed := by
  apply hg.mapRules
  intro v r hr c hc s hs
  split at hc
  · obtain rfl := List.mem_singleton.1 hc
    exact hg.symbol_of_mem hr hs
  · cases hc

/-! ### What is left -/

def Productive (g : Grammar) : Prop := ∀ v ∈ g.vars, ∃ w, g.Yields [v] w

def Accessible (g : Grammar) : Prop :=
  ∀ v ∈ g.vars, ReflTransGen (fun u v => ∃ r ∈ g.rules u, v ∈ r) g.start v

/-- Every variable takes part in a derivation, and none is a rule of itself. -/
structure Trimmed (g : Grammar) : Prop where
  productive : g.Productive
  accessible : g.Accessible
  no_self_unit : ∀ v, [v] ∉ g.rules v

/-! ### Variables that derive nothing -/

theorem WellFormed.start_mem_generating_iff (hg : g.WellFormed) :
    g.start ∈ g.generating ↔ ∃ w, g.Derives w := by
  rw [hg.mem_generating_iff, and_iff_right (start_mem_vars g)]
  rfl

/-- The variable and the symbols of a rule that yields something are generating. -/
theorem WellFormed.generating_of_rule (hg : g.WellFormed) (hb : b ∈ g.rules v)
    (hw : g.Yields b w) : v ∈ g.generating ∧ ∀ s ∈ b, s ∈ g.vars → s ∈ g.generating := by
  have hsym := generating_of_yields hw
  refine ⟨mem_generating_of_rule hb hsym, fun s hs hvar => ?_⟩
  exact (or_assoc.2 (hsym s hs)).resolve_left fun h => hg.ne_variable h hvar rfl

theorem all_generating_iff {s : ExtTreeSet String} :
    (r.all fun a => !g.isVariable a || a ∈ s) ↔ ∀ a ∈ r, a ∈ g.vars → a ∈ s := by
  simp only [List.all_eq_true, Bool.or_eq_true, Bool.not_eq_true', decide_eq_true_eq,
    ← Bool.not_eq_true, isVariable_iff, Decidable.imp_iff_not_or]

section NonGenerating

variable (hstart : g.start ∈ g.generating)
include hstart

theorem eliminateNonGenerating_eq : g.eliminateNonGenerating =
    (g.mapRules fun _ r => if r.all fun s => !g.isVariable s || s ∈ g.generating
      then [r] else []).retain (· ∈ g.generating) := by
  simp [eliminateNonGenerating, hstart]

theorem WellFormed.mem_rules_eliminateNonGenerating (hg : g.WellFormed) :
    b ∈ g.eliminateNonGenerating.rules v ↔
      (v = g.start ∨ v ∈ g.others ∧ v ∈ g.generating) ∧ b ∈ g.rules v ∧
        ∀ s ∈ b, s ∈ g.vars → s ∈ g.generating := by
  rw [eliminateNonGenerating_eq hstart, mem_rules_retain, hg.mem_rules_filter, decide_eq_true_eq,
    all_generating_iff]
  rfl

/-- The variable of a rule that yields something is left, and so is the rule. -/
theorem WellFormed.yields_eliminateNonGenerating_of_rule (hg : g.WellFormed) (hb : b ∈ g.rules v)
    (hw : g.Yields b w) (hw' : g.eliminateNonGenerating.Yields b w) :
    g.eliminateNonGenerating.Yields [v] w := by
  obtain ⟨hv, hsym⟩ := hg.generating_of_rule hb hw
  refine .of_rule ((hg.mem_rules_eliminateNonGenerating hstart).2 ⟨?_, hb, hsym⟩) hw'
  exact (mem_vars_iff.1 (hg.mem_vars_of_rule hb)).imp_right fun ho => ⟨ho, hv⟩

theorem WellFormed.equivalent_eliminateNonGenerating_of_mem (hg : g.WellFormed) :
    g.Equivalent g.eliminateNonGenerating := by
  have hh : g.eliminateNonGenerating.WellFormed := by
    rw [eliminateNonGenerating_eq hstart]
    apply (hg.filter _).retain
    intro v _ r hr s hs hvar
    have hgen := all_generating_iff.1 (hg.mem_rules_filter.1 hr).2 s hs hvar
    exact .inr (decide_eq_true hgen)
  apply Equivalent.of_subset hh
  · rw [eliminateNonGenerating_eq hstart]
    rfl
  · rw [eliminateNonGenerating_eq hstart]
    rfl
  · intro v b hb
    exact ((hg.mem_rules_eliminateNonGenerating hstart).1 hb).2.1
  · exact fun v b hb u => hg.yields_eliminateNonGenerating_of_rule hstart hb

theorem WellFormed.productive_eliminateNonGenerating (hg : g.WellFormed) :
    g.eliminateNonGenerating.Productive := by
  intro v hv
  have hgen : v ∈ g.generating := by
    rw [eliminateNonGenerating_eq hstart, mem_vars_retain, decide_eq_true_eq] at hv
    rcases hv with rfl | ⟨-, hv⟩
    · exact hstart
    · exact hv
  obtain ⟨w, hw⟩ := exists_yields_of_generating hgen
  refine ⟨w, hw.imp ?_ fun v b hb u => hg.yields_eliminateNonGenerating_of_rule hstart hb⟩
  rw [eliminateNonGenerating_eq hstart]
  exact fun t ht => ht

end NonGenerating

theorem WellFormed.eliminateNonGenerating_of_not_derives (hg : g.WellFormed)
    (h : ∀ w, ¬ g.Derives w) : g.eliminateNonGenerating = Grammar.empty g.terminals g.start := by
  have hstart : g.start ∉ g.generating := by
    intro hstart
    obtain ⟨w, hw⟩ := hg.start_mem_generating_iff.1 hstart
    exact h w hw
  simp [eliminateNonGenerating, hstart]

theorem WellFormed.not_derives_empty (hg : g.WellFormed) :
    ¬ (Grammar.empty g.terminals g.start).Derives w := by
  rw [Derives, hg.empty.yields_variable_iff (start_mem_vars _)]
  rintro ⟨b, hb, -⟩
  rw [rules_empty] at hb
  exact absurd hb ExtTreeSet.not_mem_empty

theorem WellFormed.equivalent_eliminateNonGenerating (hg : g.WellFormed) :
    g.Equivalent g.eliminateNonGenerating := by
  by_cases hstart : g.start ∈ g.generating
  · exact hg.equivalent_eliminateNonGenerating_of_mem hstart
  · have hnone : ∀ w, ¬ g.Derives w := fun w hw => hstart (hg.start_mem_generating_iff.2 ⟨w, hw⟩)
    rw [hg.eliminateNonGenerating_of_not_derives hnone]
    refine ⟨hg.empty, rfl, fun w => ?_⟩
    simp [hg.not_derives_empty, hnone w]

/-! ### Variables out of reach -/

theorem mem_rules_eliminateUnreachable : b ∈ g.eliminateUnreachable.rules v ↔
    (v = g.start ∨ v ∈ g.others ∧ v ∈ g.reachable) ∧ b ∈ g.rules v := by
  rw [eliminateUnreachable, mem_rules_retain, decide_eq_true_eq]

theorem mem_reachable_of_kept (hv : v = g.start ∨ v ∈ g.reachable) (hb : b ∈ g.rules v)
    (hu : u ∈ b) (hvar : u ∈ g.vars) : u ∈ g.reachable := by
  rcases hv with rfl | hv
  · exact mem_reachable_of_rule (start_mem_reachable g) hb hu hvar
  · exact mem_reachable_of_rule hv hb hu hvar

theorem WellFormed.mem_rules_of_reachable (hg : g.WellFormed) (hv : v ∈ g.reachable)
    (hb : b ∈ g.rules v) : b ∈ g.eliminateUnreachable.rules v := by
  refine mem_rules_eliminateUnreachable.2 ⟨?_, hb⟩
  exact (mem_vars_iff.1 (hg.mem_vars_of_rule hb)).imp_right fun ho => ⟨ho, hv⟩

/-- Only symbols that can be reached take part. -/
theorem WellFormed.yields_eliminateUnreachable (hg : g.WellFormed) (hw : g.Yields r w)
    (hr : ∀ s ∈ r, s ∈ g.vars → s ∈ g.reachable) : g.eliminateUnreachable.Yields r w := by
  apply hw.imp_of_closed (P := fun s => s ∈ g.vars → s ∈ g.reachable) _ _ hr
  · exact fun t ht _ => ht
  · intro v hv b hb
    have hreach := hv (hg.mem_vars_of_rule hb)
    exact ⟨hg.mem_rules_of_reachable hreach hb, fun s => mem_reachable_of_kept (.inr hreach) hb⟩

theorem mem_reachable_of_mem_vars (hv : v ∈ g.eliminateUnreachable.vars) : v ∈ g.reachable := by
  rw [eliminateUnreachable, mem_vars_retain, decide_eq_true_eq] at hv
  rcases hv with rfl | ⟨-, hv⟩
  · exact start_mem_reachable g
  · exact hv

theorem WellFormed.equivalent_eliminateUnreachable (hg : g.WellFormed) :
    g.Equivalent g.eliminateUnreachable := by
  refine ⟨hg.retain ?_, rfl, fun w => ⟨?_, fun hw => ?_⟩⟩
  · intro v hv r hr s hs hvar
    right
    simpa using mem_reachable_of_kept (by simpa using hv) hr hs hvar
  · apply Yields.imp
    · exact fun t ht => ht
    · exact fun v b hb u _ hw => .of_rule (mem_rules_eliminateUnreachable.1 hb).2 hw
  · apply hg.yields_eliminateUnreachable hw
    intro s hs _
    obtain rfl := List.mem_singleton.1 hs
    exact start_mem_reachable g

theorem WellFormed.accessible_eliminateUnreachable (hg : g.WellFormed) :
    g.eliminateUnreachable.Accessible := by
  intro v hv
  have hpath := mem_reachable_iff.1 (mem_reachable_of_mem_vars hv)
  clear hv
  induction hpath with
  | refl => exact .refl
  | tail hpath hstep ih =>
    obtain ⟨r, hr, hu, -⟩ := mem_successors.1 hstep
    exact ih.tail ⟨r, hg.mem_rules_of_reachable (mem_reachable_iff.2 hpath) hr, hu⟩

theorem WellFormed.productive_eliminateUnreachable (hg : g.WellFormed) (h : g.Productive) :
    g.eliminateUnreachable.Productive := by
  intro v hv
  obtain ⟨w, hw⟩ := h v (mem_vars_of_mem_retain hv)
  refine ⟨w, hg.yields_eliminateUnreachable hw fun s hs _ => ?_⟩
  exact List.mem_singleton.1 hs ▸ mem_reachable_of_mem_vars hv

/-! ### Rules from a variable to itself -/

theorem eliminateSelfUnits_eq (g : Grammar) : g.eliminateSelfUnits =
    g.mapRules fun v r => if decide (r ≠ [v]) then [r] else [] := by
  simp only [eliminateSelfUnits, decide_not, Bool.not_eq_true', decide_eq_false_iff_not, ite_not]

theorem WellFormed.mem_rules_eliminateSelfUnits (hg : g.WellFormed) :
    b ∈ g.eliminateSelfUnits.rules v ↔ b ∈ g.rules v ∧ b ≠ [v] := by
  rw [eliminateSelfUnits_eq, hg.mem_rules_filter, decide_eq_true_eq]

theorem WellFormed.yields_eliminateSelfUnits_of_rule (hg : g.WellFormed) (hb : b ∈ g.rules v)
    (hw : g.eliminateSelfUnits.Yields b w) : g.eliminateSelfUnits.Yields [v] w := by
  by_cases h : b = [v]
  · exact h ▸ hw
  · exact .of_rule (hg.mem_rules_eliminateSelfUnits.2 ⟨hb, h⟩) hw

theorem WellFormed.equivalent_eliminateSelfUnits (hg : g.WellFormed) :
    g.Equivalent g.eliminateSelfUnits := by
  apply Equivalent.of_subset
  · exact eliminateSelfUnits_eq g ▸ hg.filter _
  · rfl
  · rfl
  · exact fun v b hb => (hg.mem_rules_eliminateSelfUnits.1 hb).1
  · exact fun v b hb u _ => hg.yields_eliminateSelfUnits_of_rule hb

theorem WellFormed.productive_eliminateSelfUnits (hg : g.WellFormed) (h : g.Productive) :
    g.eliminateSelfUnits.Productive := by
  intro v hv
  obtain ⟨w, hw⟩ := h v hv
  refine ⟨w, hw.imp ?_ fun v b hb u _ => hg.yields_eliminateSelfUnits_of_rule hb⟩
  exact fun t ht => ht

/-- A rule that leads from a variable to itself leads to no other variable. -/
theorem WellFormed.accessible_eliminateSelfUnits (hg : g.WellFormed) (h : g.Accessible) :
    g.eliminateSelfUnits.Accessible := by
  intro v hv
  have hpath : ReflTransGen (fun u v => ∃ r ∈ g.rules u, v ∈ r) g.start v := h v hv
  clear hv
  induction hpath with
  | refl => exact .refl
  | @tail u v _ hstep ih =>
    obtain ⟨r, hr, hv⟩ := hstep
    by_cases hself : r = [u]
    · rw [hself, List.mem_singleton] at hv
      exact hv ▸ ih
    · exact ih.tail ⟨r, hg.mem_rules_eliminateSelfUnits.2 ⟨hr, hself⟩, hv⟩

/-! ### The passes together -/

theorem WellFormed.equivalent_trim (hg : g.WellFormed) : g.Equivalent g.trim := by
  have h₁ := hg.equivalent_eliminateNonGenerating
  have h₂ := h₁.wellFormed.equivalent_eliminateUnreachable
  have h₃ := h₂.wellFormed.equivalent_eliminateSelfUnits
  exact h₁.trans (h₂.trans h₃)

theorem start_eliminateNonGenerating (g : Grammar) :
    g.eliminateNonGenerating.start = g.start := by
  unfold eliminateNonGenerating
  dsimp only
  split <;> rfl

theorem start_trim (g : Grammar) : g.trim.start = g.start := start_eliminateNonGenerating g

theorem mem_vars_of_mem_trim (hv : v ∈ g.trim.vars) : v ∈ g.vars := by
  have hv : v ∈ g.eliminateNonGenerating.vars := mem_vars_of_mem_retain hv
  unfold eliminateNonGenerating at hv
  dsimp only at hv
  split at hv
  · exact mem_vars_of_mem_retain hv
  · exact mem_vars_iff.2 (.inl (List.mem_singleton.1 hv))

theorem WellFormed.mem_rules_of_trim (hg : g.WellFormed) (hb : b ∈ g.trim.rules v) :
    b ∈ g.rules v := by
  have h₁ := hg.equivalent_eliminateNonGenerating.wellFormed
  have h₂ := h₁.equivalent_eliminateUnreachable.wellFormed
  have hb := (mem_rules_eliminateUnreachable.1 (h₂.mem_rules_eliminateSelfUnits.1 hb).1).2
  by_cases hstart : g.start ∈ g.generating
  · exact ((hg.mem_rules_eliminateNonGenerating hstart).1 hb).2.1
  · simp only [eliminateNonGenerating, hstart, if_false, rules_empty] at hb
    exact absurd hb ExtTreeSet.not_mem_empty

/-- In a trimmed grammar that derives something, every variable takes part in a derivation. -/
theorem WellFormed.trimmed_trim (hg : g.WellFormed) (h : ∃ w, g.Derives w) : g.trim.Trimmed := by
  have hstart := hg.start_mem_generating_iff.2 h
  have hg₁ := hg.equivalent_eliminateNonGenerating.wellFormed
  have hg₂ := hg₁.equivalent_eliminateUnreachable.wellFormed
  have hproductive := hg.productive_eliminateNonGenerating hstart
  constructor
  · exact hg₂.productive_eliminateSelfUnits (hg₁.productive_eliminateUnreachable hproductive)
  · exact hg₂.accessible_eliminateSelfUnits hg₁.accessible_eliminateUnreachable
  · exact fun v hv => (hg₂.mem_rules_eliminateSelfUnits.1 hv).2 rfl

theorem mapRules_empty {terminals : ExtTreeSet String} {start : String}
    {f : String → Rule → List Rule} :
    (empty terminals start).mapRules f = empty terminals start := by
  simp [mapRules, empty]

theorem retain_empty {terminals : ExtTreeSet String} {start : String} {keep : String → Bool} :
    (empty terminals start).retain keep = empty terminals start := by
  have h (f : String → RuleSet → Bool) : (∅ : ExtTreeMap String RuleSet).filter f = ∅ := by
    apply ExtTreeMap.ext_getElem?
    simp [ExtTreeMap.getElem?_filter]
  simp [retain, empty, h]

/-- Of a grammar that derives nothing only the start is left. -/
theorem WellFormed.trim_eq_empty (hg : g.WellFormed) (h : ∀ w, ¬ g.Derives w) :
    g.trim = Grammar.empty g.terminals g.start := by
  rw [trim, hg.eliminateNonGenerating_of_not_derives h, eliminateUnreachable, retain_empty,
    eliminateSelfUnits, mapRules_empty]

/-! ### What is left takes part -/

section TakesPart

variable {a : String} {u : List String}

/-- What a symbol of a rule yields is part of what the variable yields, if the other symbols yield
something, too. -/
theorem exists_yields_of_rule (hr : r ∈ g.rules v) (hsymbols : ∀ b ∈ r, ∃ w, g.Yields [b] w)
    (ha : a ∈ r) (hu : g.Yields [a] u) : ∃ w, g.Yields [v] w ∧ ∀ t ∈ u, t ∈ w := by
  obtain ⟨s, s', rfl⟩ := List.append_of_mem ha
  obtain ⟨x, hx⟩ := exists_yields_iff.2 fun b hb => hsymbols b (List.mem_append_left _ hb)
  obtain ⟨y, hy⟩ := exists_yields_iff.2 fun b hb =>
    hsymbols b (List.mem_append_right _ (List.mem_cons_of_mem a hb))
  refine ⟨x ++ (u ++ y), .of_rule hr (hx.append (hu.append hy)), fun t ht => ?_⟩
  exact List.mem_append_right _ (List.mem_append_left _ ht)

theorem WellFormed.exists_yields_of_symbol (hg : g.WellFormed) (h : g.Productive)
    (hr : r ∈ g.rules v) : ∀ b ∈ r, ∃ w, g.Yields [b] w := by
  intro b hb
  rcases hg.symbol_of_mem hr hb with rfl | hb | hb
  · exact ⟨[], .epsilon .nil⟩
  · exact ⟨[b], .terminal hb .nil⟩
  · exact h b hb

/-- What a variable yields is part of a word of the language; the induction is on the way from the
start to the variable. -/
theorem Trimmed.exists_derives_of_yields (ht : g.Trimmed) (hg : g.WellFormed) (hv : v ∈ g.vars)
    (hu : g.Yields [v] u) : ∃ w, g.Derives w ∧ ∀ t ∈ u, t ∈ w := by
  have hpath := ht.accessible v hv
  clear hv
  induction hpath generalizing u with
  | refl => exact ⟨u, hu, fun _ => id⟩
  | tail _ hstep ih =>
    obtain ⟨r, hr, hvr⟩ := hstep
    have hsymbols := hg.exists_yields_of_symbol ht.productive hr
    obtain ⟨x, hx, hsub⟩ := exists_yields_of_rule hr hsymbols hvr hu
    obtain ⟨w, hw, hsub'⟩ := ih hx
    exact ⟨w, hw, fun t ht => hsub' t (hsub t ht)⟩

/-- Each terminal in a rule of a trimmed grammar stands in a word of the language. -/
theorem WellFormed.exists_derives_of_mem_trim (hg : g.WellFormed) (hr : r ∈ g.trim.rules v)
    (ha : a ∈ r) (hterm : a ∈ g.terminals) : ∃ w, g.Derives w ∧ a ∈ w := by
  have htrim := hg.equivalent_trim
  by_cases hnone : ∀ w, ¬ g.Derives w
  · rw [hg.trim_eq_empty hnone, rules_empty] at hr
    exact absurd hr ExtTreeSet.not_mem_empty
  · have hsome : ∃ w, g.Derives w := by simpa using hnone
    have ht := hg.trimmed_trim hsome
    have hself : g.trim.Yields [a] [a] := .terminal (htrim.terminals ▸ hterm) .nil
    have hsymbols := htrim.wellFormed.exists_yields_of_symbol ht.productive hr
    obtain ⟨u, hu, hmem⟩ := exists_yields_of_rule hr hsymbols ha hself
    obtain ⟨w, hw, hsub⟩ :=
      ht.exists_derives_of_yields htrim.wellFormed (htrim.wellFormed.mem_vars_of_rule hr) hu
    exact ⟨w, (htrim.derives w).1 hw, hsub a (hmem a (List.mem_singleton_self a))⟩

end TakesPart

end FormalLanguages.Grammar
