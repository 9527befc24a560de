import FormalLanguages.Proofs.Grammar.Trim

/-!
# Trimmed grammars

In a grammar whose variables all take part in a derivation there is nothing to cut off, so that
trimming a second time changes nothing.
-/

namespace FormalLanguages.Grammar

open Std Relation

variable {g h : Grammar} {v : String}

/-- Grammars with the same entries and the same rules are equal. -/
theorem eq_of_rules (terminals : g.terminals = h.terminals) (start : g.start = h.start)
    (others : g.others = h.others) (entries : ∀ v, v ∈ g.productions ↔ v ∈ h.productions)
    (rules : ∀ v b, b ∈ g.rules v ↔ b ∈ h.rules v) : g = h := by
  have hproductions : g.productions = h.productions := by
    apply ExtTreeMap.ext_getElem?
    intro v
    have hrules : g.rules v = h.rules v := ExtTreeSet.ext_mem fun b => rules v b
    simp only [Grammar.rules, ExtTreeMap.getD_eq_getD_getElem?] at hrules
    have hentry := entries v
    simp only [ExtTreeMap.mem_iff_isSome_getElem?] at hentry
    cases hg : g.productions[v]? <;> cases hh : h.productions[v]? <;> simp_all
  cases g
  cases h
  simp_all

/-- A filter that all rules pass. -/
theorem WellFormed.filter_eq_self (hg : g.WellFormed) {keep : String → Rule → Bool}
    (hkeep : ∀ v, ∀ r ∈ g.rules v, keep v r) :
    (g.mapRules fun v r => if keep v r then [r] else []) = g := by
  refine eq_of_rules rfl rfl rfl (fun v => ?_) fun v b => ?_
  · simp [Grammar.mapRules]
  · rw [hg.mem_rules_filter]
    exact and_iff_left_of_imp (hkeep v b)

theorem WellFormed.retain_eq_self (hg : g.WellFormed) {keep : String → Bool}
    (hkeep : ∀ v ∈ g.others, keep v) : g.retain keep = g := by
  have hothers : g.others.filter keep = g.others := List.filter_eq_self.2 hkeep
  refine eq_of_rules rfl rfl hothers (fun v => ?_) fun v b => ?_
  · have hvar : v ∈ g.productions → v = g.start ∨ v ∈ g.others :=
      fun hv => mem_vars_iff.1 (hg.entry_mem v hv)
    simpa [Grammar.retain, hothers, ExtTreeMap.mem_filter] using hvar
  · rw [mem_rules_retain]
    refine and_iff_right_of_imp fun hb => ?_
    exact (mem_vars_iff.1 (hg.mem_vars_of_rule hb)).imp_right fun ho => ⟨ho, hkeep v ho⟩

/-! ### Nothing to cut off -/

theorem WellFormed.eliminateNonGenerating_eq_self (hg : g.WellFormed) (h : g.Productive) :
    g.eliminateNonGenerating = g := by
  have hgen : ∀ v ∈ g.vars, v ∈ g.generating :=
    fun v hv => hg.mem_generating_iff.2 ⟨hv, h v hv⟩
  rw [eliminateNonGenerating_eq (hgen g.start (start_mem_vars g)), hg.filter_eq_self]
  · exact hg.retain_eq_self fun v hv => decide_eq_true (hgen v (List.mem_cons_of_mem _ hv))
  · exact fun v r _ => all_generating_iff.2 fun a _ => hgen a

theorem Accessible.mem_reachable (h : g.Accessible) (hg : g.WellFormed) (hv : v ∈ g.vars) :
    v ∈ g.reachable := by
  have hpath := h v hv
  induction hpath with
  | refl => exact start_mem_reachable g
  | tail _ hstep ih =>
    obtain ⟨r, hr, hvr⟩ := hstep
    exact mem_reachable_of_rule (ih (hg.mem_vars_of_rule hr)) hr hvr hv

theorem WellFormed.eliminateUnreachable_eq_self (hg : g.WellFormed) (h : g.Accessible) :
    g.eliminateUnreachable = g :=
  hg.retain_eq_self fun _ hv =>
    decide_eq_true (h.mem_reachable hg (List.mem_cons_of_mem _ hv))

theorem WellFormed.eliminateSelfUnits_eq_self (hg : g.WellFormed) (h : ∀ v, [v] ∉ g.rules v) :
    g.eliminateSelfUnits = g := by
  rw [eliminateSelfUnits_eq, hg.filter_eq_self]
  exact fun v r hr => decide_eq_true fun e => h v (e ▸ hr)

theorem WellFormed.trim_eq_self (hg : g.WellFormed) (h : g.Trimmed) : g.trim = g := by
  rw [trim, hg.eliminateNonGenerating_eq_self h.productive,
    hg.eliminateUnreachable_eq_self h.accessible, hg.eliminateSelfUnits_eq_self h.no_self_unit]

theorem WellFormed.trim_trim (hg : g.WellFormed) : g.trim.trim = g.trim := by
  by_cases h : ∃ w, g.Derives w
  · exact hg.equivalent_trim.wellFormed.trim_eq_self (hg.trimmed_trim h)
  · have hnone : ∀ w, ¬ g.Derives w := not_exists.1 h
    rw [hg.trim_eq_empty hnone]
    exact hg.empty.trim_eq_empty fun w => hg.not_derives_empty

/-- Trimming keeps the language and is done once. In what is left each variable can be reached from
the start and derives something, and none is a rule of itself; if the grammar derives nothing, only
the start is left, without an entry. -/
theorem trim_exact (hg : g.WellFormed) :
    (∀ w, g.trim.Derives w ↔ g.Derives w) ∧
    ((∀ w, ¬ g.Derives w) → g.trim.vars = [g.start] ∧ g.trim.productions = ∅) ∧
    ((∃ w, g.Derives w) →
      (∀ v ∈ g.trim.vars,
        ReflTransGen (fun u v => ∃ r ∈ g.trim.rules u, v ∈ r) g.trim.start v ∧
          ∃ w, g.trim.Yields [v] w) ∧
      ∀ v, [v] ∉ g.trim.rules v) ∧
    g.trim.trim = g.trim := by
  refine ⟨hg.equivalent_trim.derives, fun hnone => ?_, fun hsome => ?_, hg.trim_trim⟩
  · rw [hg.trim_eq_empty hnone]
    exact ⟨rfl, rfl⟩
  · have ht := hg.trimmed_trim hsome
    exact ⟨fun v hv => ⟨ht.accessible v hv, ht.productive v hv⟩, ht.no_self_unit⟩

/-- Of `mixed` the start and `N` are left. With `D` for its start it derives nothing. -/
theorem trim_mixed : mixed.WellFormed ∧ (∃ w, mixed.Derives w) ∧
    mixed.trim.vars = ["S", "N"] ∧ (∃ w, mixed.trim.Yields ["N"] w) ∧
    ["S"] ∈ mixed.rules "S" ∧ ["S"] ∉ mixed.trim.rules "S" ∧
    mixed.trim.trim = mixed.trim ∧
    (mixed.withStart "D").WellFormed ∧ (∀ w, ¬ (mixed.withStart "D").Derives w) ∧
    (mixed.withStart "D").trim.vars = ["D"] := by
  have hD : (mixed.withStart "D").WellFormed :=
    mixed_wellFormed.withStart (by decide +kernel)
  have hnone : ∀ w, ¬ (mixed.withStart "D").Derives w := by
    have hstart : (mixed.withStart "D").start ∉ (mixed.withStart "D").generating := by
      decide +kernel
    exact fun w hw => hstart (hD.start_mem_generating_iff.2 ⟨w, hw⟩)
  have hsome : ∃ w, mixed.Derives w := ⟨_, mixed_derives 0⟩
  have hvars : mixed.trim.vars = ["S", "N"] := by decide +kernel
  obtain ⟨-, -, hleft, htwice⟩ := trim_exact mixed_wellFormed
  obtain ⟨hvar, hself⟩ := hleft hsome
  exact ⟨mixed_wellFormed, hsome, hvars, (hvar "N" (by simp [hvars])).2,
    mem_rules_addRules.2 (.inl ⟨["S"], by simp, by decide⟩), hself "S", htwice, hD, hnone,
    ((trim_exact hD).2.1 hnone).1⟩

end FormalLanguages.Grammar
