import FormalLanguages.Grammar.Chomsky
import FormalLanguages.Proofs.Grammar.Trim
import Mathlib.Data.List.ProdSigma

/-!
# Removing the rules that are one variable

Each variable covers more and more variables: their rules are its own, and a rule of theirs that
is one variable is its own too or leads to a variable that is covered. When no rule is one
variable any more, a variable covers all that can be reached from it by such rules, and has
exactly their other rules.
-/

namespace FormalLanguages.Grammar

open Std Relation

variable {g : Grammar} {b r : Rule} {s : Unfolding} {u v x : String} {w : List String}

def UnitReach (g : Grammar) : String → String → Prop :=
  ReflTransGen fun u v => [v] ∈ g.rules u ∧ v ∈ g.vars

theorem isUnitRule_iff : g.isUnitRule b ↔ ∃ u ∈ g.vars, b = [u] := by
  unfold isUnitRule
  split
  · next s => simp
  · next h =>
    simp only [Bool.false_eq_true, false_iff]
    rintro ⟨u, -, rfl⟩
    exact h u rfl

theorem unitRule?_eq_some (h : g.unitRule? = some (v, u)) :
    v ∈ g.vars ∧ [u] ∈ g.rules v ∧ u ∈ g.vars := by
  obtain ⟨v', hv, h⟩ := List.exists_of_findSome?_eq_some h
  obtain ⟨r, hr, h⟩ := List.exists_of_findSome?_eq_some h
  split at h
  · next u' =>
    split at h
    · next hu =>
      cases h
      exact ⟨hv, ExtTreeSet.mem_toList.1 hr, by simpa using hu⟩
    · cases h
  · cases h

theorem unitRule?_eq_none (h : g.unitRule? = none) (hv : v ∈ g.vars) (hr : r ∈ g.rules v) :
    ¬ g.isUnitRule r := by
  intro hunit
  obtain ⟨u, hu, rfl⟩ := isUnitRule_iff.1 hunit
  have h := List.findSome?_eq_none_iff.1 (List.findSome?_eq_none_iff.1 h v hv) [u]
    (ExtTreeSet.mem_toList.2 hr)
  simp [hu] at h

namespace Unfolding

/-- `C v u`: the rules of `u` have been taken over by `v`. -/
structure Covers (g : Grammar) (s : Unfolding) (C : String → String → Prop) : Prop where
  self : ∀ v, C v v
  rule : ∀ v u, C v u → ∀ b ∈ g.rules u,
    b ∈ s.grammar.rules v ∨ ∃ x ∈ g.vars, b = [x] ∧ C v x
  unfolded : ∀ v u, (v, u) ∈ s.unfolded → C v u

/-- What holds of the grammar and the unfolded rules at any time. -/
structure From (g : Grammar) (s : Unfolding) : Prop where
  wellFormed : s.grammar.WellFormed
  terminals : s.grammar.terminals = g.terminals
  vars : s.grammar.vars = g.vars
  start : s.grammar.start = g.start
  sound : ∀ v, ∀ b ∈ s.grammar.rules v, ∃ u, g.UnitReach v u ∧ b ∈ g.rules u
  covers : ∃ C, Covers g s C

theorem mem_rules_unfoldRule : b ∈ (s.unfoldRule v u).grammar.rules x ↔
    if x = v then b ∈ s.grammar.rules v ∧ b ≠ [u] ∨ (v, u) ∉ s.unfolded ∧ b ∈ s.grammar.rules u
    else b ∈ s.grammar.rules x := by
  have herase : b ∈ (s.grammar.rules v).erase [u] ↔ b ∈ s.grammar.rules v ∧ b ≠ [u] := by
    rw [ExtTreeSet.mem_erase, ne_eq, LawfulEqCmp.compare_eq_iff_eq, and_comm, ne_comm]
  unfold unfoldRule
  dsimp only
  split
  · next h =>
    rw [rules_setRules]
    split
    · simp [herase, h]
    · rfl
  · next h =>
    rw [rules_setRules]
    split
    · simp [herase, h, ExtTreeSet.mem_union_iff]
    · rfl

theorem mem_rules_unfoldRule_of_mem (hb : b ∈ s.grammar.rules x) (h : ¬ (x = v ∧ b = [u])) :
    b ∈ (s.unfoldRule v u).grammar.rules x := by
  rw [mem_rules_unfoldRule]
  split
  · next hx => exact .inl ⟨hx ▸ hb, fun e => h ⟨hx, e⟩⟩
  · exact hb

theorem mem_unfolded_unfoldRule {p : String × String} :
    p ∈ (s.unfoldRule v u).unfolded ↔ p = (v, u) ∨ p ∈ s.unfolded := by
  unfold unfoldRule
  dsimp only
  split
  · next h => simp only [iff_or_self]; exact fun e => e ▸ h
  · simp

namespace From

theorem init (hg : g.WellFormed) : From g { grammar := g } := by
  refine ⟨hg, rfl, rfl, rfl, fun v b hb => ⟨v, .refl, hb⟩, Eq, fun v => rfl, ?_, ?_⟩
  · rintro v _ rfl b hb
    exact .inl hb
  · exact fun v u h => absurd h List.not_mem_nil

variable (hg : g.WellFormed) (h : From g s) (hv : v ∈ g.vars) (hu : u ∈ g.vars)
  (hvu : [u] ∈ s.grammar.rules v)
include h hu hvu

theorem sound_unfoldRule :
    ∀ x, ∀ b ∈ (s.unfoldRule v u).grammar.rules x, ∃ y, g.UnitReach x y ∧ b ∈ g.rules y := by
  intro x b hb
  rw [mem_rules_unfoldRule] at hb
  split at hb
  · next hx =>
    subst hx
    rcases hb with ⟨hb, -⟩ | ⟨-, hb⟩
    · exact h.sound x b hb
    · obtain ⟨y, hxy, hy⟩ := h.sound x [u] hvu
      obtain ⟨z, huz, hz⟩ := h.sound u b hb
      exact ⟨z, (hxy.tail ⟨hy, hu⟩).trans huz, hz⟩
  · exact h.sound x b hb

omit hvu in
theorem covers_unfoldRule : ∃ C, Covers g (s.unfoldRule v u) C := by
  obtain ⟨C, hC⟩ := h.covers
  by_cases hknown : (v, u) ∈ s.unfolded
  · refine ⟨C, hC.self, fun a x hax b hb => ?_, fun a x hax => ?_⟩
    · rcases hC.rule a x hax b hb with hb | hb
      · by_cases hab : a = v ∧ b = [u]
        · exact .inr ⟨u, hu, hab.2, hab.1 ▸ hC.unfolded v u hknown⟩
        · exact .inl (mem_rules_unfoldRule_of_mem hb hab)
      · exact .inr hb
    · rcases mem_unfolded_unfoldRule.1 hax with hax | hax
      · cases hax
        exact hC.unfolded v u hknown
      · exact hC.unfolded a x hax
  · -- from now on `v` covers what `u` does
    refine ⟨fun a x => C a x ∨ a = v ∧ C u x, fun a => .inl (hC.self a), ?_, ?_⟩
    · rintro a x (hax | ⟨rfl, hux⟩) b hb
      · rcases hC.rule a x hax b hb with hb | ⟨y, hy, rfl, hay⟩
        · by_cases hab : a = v ∧ b = [u]
          · exact .inr ⟨u, hu, hab.2, .inr ⟨hab.1, hC.self u⟩⟩
          · exact .inl (mem_rules_unfoldRule_of_mem hb hab)
        · exact .inr ⟨y, hy, rfl, .inl hay⟩
      · rcases hC.rule u x hux b hb with hb | ⟨y, hy, rfl, huy⟩
        · left
          rw [mem_rules_unfoldRule, if_pos rfl]
          exact .inr ⟨hknown, hb⟩
        · exact .inr ⟨y, hy, rfl, .inr ⟨rfl, huy⟩⟩
    · intro a x hax
      rcases mem_unfolded_unfoldRule.1 hax with hax | hax
      · cases hax
        exact .inr ⟨rfl, hC.self u⟩
      · exact .inl (hC.unfolded a x hax)

include hg hv

theorem unfoldRule : From g (s.unfoldRule v u) := by
  have hset : ∃ rs, (s.unfoldRule v u).grammar = s.grammar.setRules v rs := by
    unfold Unfolding.unfoldRule
    dsimp only
    split
    · exact ⟨_, rfl⟩
    · exact ⟨_, rfl⟩
  have hsound := h.sound_unfoldRule hu hvu
  obtain ⟨rs, hrs⟩ := hset
  refine ⟨?_, ?_, ?_, ?_, hsound, h.covers_unfoldRule hu⟩
  · rw [hrs]
    apply h.wellFormed.setRules (h.vars ▸ hv)
    intro r hr
    have hr' : r ∈ (s.unfoldRule v u).grammar.rules v := by
      rw [hrs, rules_setRules, if_pos rfl]
      exact hr
    obtain ⟨y, -, hy⟩ := hsound v r hr'
    have hrule := hg.isRule hy
    unfold IsRule IsSymbol at hrule ⊢
    rwa [h.terminals, h.vars]
  · rw [hrs]
    exact h.terminals
  · rw [hrs]
    exact h.vars
  · rw [hrs]
    exact h.start

end From

/-- No rule is left to unfold. -/
theorem From.mem_rules_iff (h : From g s) (hnone : s.grammar.unitRule? = none) :
    b ∈ s.grammar.rules v ↔ ¬ g.isUnitRule b ∧ ∃ u, g.UnitReach v u ∧ b ∈ g.rules u := by
  have hunit : ∀ v, ∀ b ∈ s.grammar.rules v, ¬ g.isUnitRule b := by
    intro v b hb hunit
    apply unitRule?_eq_none hnone (h.wellFormed.mem_vars_of_rule hb) hb
    rw [isUnitRule_iff] at hunit ⊢
    rwa [h.vars]
  constructor
  · exact fun hb => ⟨hunit v b hb, h.sound v b hb⟩
  · rintro ⟨hb, u, hvu, hbu⟩
    obtain ⟨C, hC⟩ := h.covers
    have hcover : ∀ u, g.UnitReach v u → C v u := by
      intro u hvu
      induction hvu with
      | refl => exact hC.self v
      | tail _ hstep ih =>
        rcases hC.rule v _ ih _ hstep.1 with hx | ⟨x, -, hx, hvx⟩
        · exact absurd (isUnitRule_iff.2 ⟨_, hstep.2, rfl⟩) (hunit v _ hx)
        · cases hx
          exact hvx
    rcases hC.rule v u (hcover u hvu) b hbu with hb' | ⟨x, hx, rfl, -⟩
    · exact hb'
    · exact absurd (isUnitRule_iff.2 ⟨x, hx, rfl⟩) hb

/-! ### The loop ends -/

theorem countP_lt_countP {α : Type} {p q : α → Bool} {l : List α} (h : ∀ a, p a → q a) {a : α}
    (ha : a ∈ l) (hq : q a) (hp : ¬ p a) : l.countP p < l.countP q := by
  obtain ⟨l₁, l₂, rfl⟩ := List.append_of_mem ha
  have h₁ := List.countP_mono_left (l := l₁) (p := p) (q := q) fun b _ => h b
  have h₂ := List.countP_mono_left (l := l₂) (p := p) (q := q) fun b _ => h b
  simp only [List.countP_append, List.countP_cons_of_pos hq, List.countP_cons_of_neg hp]
  omega

/-- The pairs of variables that are not unfolded yet count more than all the rules there can be. -/
def rank (g : Grammar) (s : Unfolding) : Nat :=
  let pairs := g.vars.product g.vars
  pairs.countP (!s.unfolded.contains ·) * (pairs.length + 1) +
    pairs.countP fun p => [p.2] ∈ s.grammar.rules p.1

theorem rank_init_le (g : Grammar) : rank g { grammar := g } ≤ g.unfoldBound := by
  have hlen : (g.vars.product g.vars).length = g.vars.length * g.vars.length :=
    List.length_product ..
  have h₁ := List.countP_le_length (l := g.vars.product g.vars)
    (p := (!({ grammar := g } : Unfolding).unfolded.contains ·))
  have h₂ := List.countP_le_length (l := g.vars.product g.vars)
    (p := fun p => [p.2] ∈ g.rules p.1)
  have h₃ := Nat.mul_le_mul_right ((g.vars.product g.vars).length + 1) h₁
  rw [hlen] at h₁ h₂ h₃
  unfold rank unfoldBound
  simp only [Nat.add_mul, Nat.mul_add] at *
  rw [hlen]
  omega

theorem rank_unfoldRule (hv : v ∈ g.vars) (hu : u ∈ g.vars) (hvu : [u] ∈ s.grammar.rules v) :
    rank g (s.unfoldRule v u) < rank g s := by
  have hmem : (v, u) ∈ g.vars.product g.vars := List.mem_product.2 ⟨hv, hu⟩
  unfold rank
  dsimp only
  by_cases hknown : (v, u) ∈ s.unfolded
  · have hunfolded : (s.unfoldRule v u).unfolded = s.unfolded := by
      simp [unfoldRule, hknown]
    have hlt : (g.vars.product g.vars).countP
        (fun p => [p.2] ∈ (s.unfoldRule v u).grammar.rules p.1) <
        (g.vars.product g.vars).countP (fun p => [p.2] ∈ s.grammar.rules p.1) := by
      apply countP_lt_countP _ hmem
      · simpa using hvu
      · simp [mem_rules_unfoldRule, hknown]
      · rintro ⟨a, x⟩ h
        simp only [decide_eq_true_eq, mem_rules_unfoldRule, hknown, not_true, false_and,
          or_false] at h ⊢
        split at h
        · next hav => exact hav ▸ h.1
        · exact h
    rw [hunfolded]
    omega
  · have hlt : (g.vars.product g.vars).countP (!(s.unfoldRule v u).unfolded.contains ·) <
        (g.vars.product g.vars).countP (!s.unfolded.contains ·) := by
      apply countP_lt_countP _ hmem
      · simpa using hknown
      · simp [mem_unfolded_unfoldRule]
      · intro p h
        simp only [Bool.not_eq_true', List.contains_eq_mem, decide_eq_false_iff_not,
          mem_unfolded_unfoldRule, not_or] at h ⊢
        exact h.2
    have hle := List.countP_le_length (l := g.vars.product g.vars)
      (p := fun p => [p.2] ∈ (s.unfoldRule v u).grammar.rules p.1)
    have hmul := Nat.mul_le_mul_right ((g.vars.product g.vars).length + 1) hlt
    rw [Nat.succ_mul] at hmul
    omega

variable {s' : Unfolding}

def step? (s : Unfolding) : Option Unfolding :=
  s.grammar.unitRule?.map fun (v, u) => s.unfoldRule v u

theorem From.exists_of_step (h : From g s) (hstep : s.step? = some s') :
    ∃ v ∈ g.vars, ∃ u ∈ g.vars, [u] ∈ s.grammar.rules v ∧ s' = s.unfoldRule v u := by
  obtain ⟨⟨v, u⟩, hvu, rfl⟩ := Option.map_eq_some_iff.1 hstep
  obtain ⟨hv, hvu, hu⟩ := unitRule?_eq_some hvu
  rw [h.vars] at hv hu
  exact ⟨v, hv, u, hu, hvu, rfl⟩

theorem From.step (hg : g.WellFormed) (h : From g s) (hstep : s.step? = some s') : From g s' := by
  obtain ⟨v, hv, u, hu, hvu, rfl⟩ := h.exists_of_step hstep
  exact h.unfoldRule hg hv hu hvu

theorem From.rank_lt (h : From g s) (hstep : s.step? = some s') : s'.rank g < s.rank g := by
  obtain ⟨v, hv, u, hu, hvu, rfl⟩ := h.exists_of_step hstep
  exact rank_unfoldRule hv hu hvu

end Unfolding

/-- The loop keeps what it has to and ends when no rule is one variable. -/
theorem WellFormed.exists_unfolding (hg : g.WellFormed) :
    ∃ s : Unfolding, s.From g ∧ g.eliminateUnits = s.grammar ∧
      Exhausts Unfolding.step? { grammar := g } s := by
  have preserved : ∀ s s' : Unfolding, s.From g → s.step? = some s' → s'.From g :=
    fun s s' h hstep => h.step hg hstep
  refine ⟨_, exhaust_induction preserved g.unfoldBound (.init hg), rfl, ?_⟩
  exact exhausts_exhaust (Unfolding.rank g) preserved (fun s s' h hstep => h.rank_lt hstep)
    (.init hg) (Unfolding.rank_init_le g)

theorem WellFormed.unitRule?_eliminateUnits (hg : g.WellFormed) :
    g.eliminateUnits.unitRule? = none := by
  obtain ⟨s, -, heq, hend⟩ := hg.exists_unfolding
  rw [heq]
  exact Option.map_eq_none_iff.1 hend.step?_eq_none

theorem WellFormed.mem_rules_eliminateUnits (hg : g.WellFormed) :
    b ∈ g.eliminateUnits.rules v ↔ ¬ g.isUnitRule b ∧ ∃ u, g.UnitReach v u ∧ b ∈ g.rules u := by
  obtain ⟨s, h, heq, -⟩ := hg.exists_unfolding
  have hnone := hg.unitRule?_eliminateUnits
  rw [heq] at hnone ⊢
  exact h.mem_rules_iff hnone

theorem yields_of_unitReach (hvu : g.UnitReach v u) (hw : g.Yields [u] w) : g.Yields [v] w := by
  induction hvu with
  | refl => exact hw
  | tail _ hstep ih => exact ih (.of_rule hstep.1 hw)

theorem WellFormed.yields_eliminateUnits_iff (hg : g.WellFormed) :
    g.eliminateUnits.Yields r w ↔ g.Yields r w := by
  obtain ⟨s, h, heq, -⟩ := hg.exists_unfolding
  have hterm : g.eliminateUnits.terminals = g.terminals := heq ▸ h.terminals
  have hh : g.eliminateUnits.WellFormed := heq ▸ h.wellFormed
  constructor
  · intro hw
    apply hw.imp (by simp [hterm])
    intro v b hb w _ hbw
    obtain ⟨-, u, hvu, hb⟩ := hg.mem_rules_eliminateUnits.1 hb
    exact yields_of_unitReach hvu (.of_rule hb hbw)
  · intro hw
    apply hw.imp (by simp [hterm])
    intro v b hb w _ hbw
    by_cases hunit : g.isUnitRule b
    · obtain ⟨u, hu, rfl⟩ := isUnitRule_iff.1 hunit
      have hu' : u ∈ g.eliminateUnits.vars := by rwa [heq, h.vars]
      obtain ⟨c, hc, hcw⟩ := (hh.yields_variable_iff hu').1 hbw
      obtain ⟨hnot, x, hux, hcx⟩ := hg.mem_rules_eliminateUnits.1 hc
      apply Yields.of_rule (hg.mem_rules_eliminateUnits.2 ⟨hnot, x, ?_, hcx⟩) hcw
      exact .head ⟨hb, hu⟩ hux
    · exact .of_rule (hg.mem_rules_eliminateUnits.2 ⟨hunit, v, .refl, hb⟩) hbw

theorem WellFormed.equivalent_eliminateUnits (hg : g.WellFormed) :
    g.Equivalent g.eliminateUnits := by
  obtain ⟨s, h, heq, -⟩ := hg.exists_unfolding
  apply Equivalent.mk (heq ▸ h.wellFormed) (heq ▸ h.terminals)
  intro w
  have hstart : g.eliminateUnits.start = g.start := heq ▸ h.start
  rw [Derives, Derives, hstart]
  exact hg.yields_eliminateUnits_iff

/-- The loop ends, and no rule is one variable then. A variable has just the other rules of the
variables that it reaches by rules of one variable, and all variables yield what they did. -/
theorem eliminateUnits_exact (hg : g.WellFormed) :
    (∃ s, Exhausts Unfolding.step? { grammar := g } s ∧ g.eliminateUnits = s.grammar) ∧
    g.eliminateUnits.WellFormed ∧
    g.eliminateUnits.terminals = g.terminals ∧ g.eliminateUnits.vars = g.vars ∧
    (∀ v u, u ∈ g.vars → [u] ∉ g.eliminateUnits.rules v) ∧
    (∀ v ∈ g.vars, ∀ w, g.eliminateUnits.Yields [v] w ↔ g.Yields [v] w) ∧
    ∀ v ∈ g.vars, ∀ b, b ∈ g.eliminateUnits.rules v ↔
      (∀ u ∈ g.vars, b ≠ [u]) ∧ ∃ u, g.UnitReach v u ∧ b ∈ g.rules u := by
  obtain ⟨s, h, heq, hend⟩ := hg.exists_unfolding
  have hrules : ∀ v b, b ∈ g.eliminateUnits.rules v ↔
      (∀ u ∈ g.vars, b ≠ [u]) ∧ ∃ u, g.UnitReach v u ∧ b ∈ g.rules u := by
    intro v b
    rw [hg.mem_rules_eliminateUnits, isUnitRule_iff]
    simp only [not_exists, not_and, ne_eq]
  refine ⟨⟨s, hend, heq⟩, hg.equivalent_eliminateUnits.wellFormed, heq ▸ h.terminals,
    heq ▸ h.vars, ?_, fun v _ w => hg.yields_eliminateUnits_iff, fun v _ b => hrules v b⟩
  intro v u hu hb
  exact ((hrules v [u]).1 hb).1 u hu rfl

/-- Two variables that are rules of each other have the same rules in the end. -/
theorem eliminateUnits_nested : nested.WellFormed ∧ ["A"] ∈ nested.rules "S" ∧
    ["S"] ∈ nested.rules "A" ∧ ["A"] ∉ nested.eliminateUnits.rules "S" ∧
    ["a", "S", "b"] ∈ nested.eliminateUnits.rules "A" ∧
    nested.eliminateUnits.Yields ["S"] ["a", "a", "b", "b"] := by
  obtain ⟨-, -, -, -, hunit, hyields, hrules⟩ := eliminateUnits_exact nested_wellFormed
  have hA : "A" ∈ nested.vars := by decide +kernel
  have hS : "S" ∈ nested.vars := by decide +kernel
  have hSA : ["A"] ∈ nested.rules "S" := by
    simp [nested, mem_rules_addRule, Rule.collapse, epsilonSymbol]
  have hAS : ["S"] ∈ nested.rules "A" := by
    simp [nested, mem_rules_addRule, Rule.collapse, epsilonSymbol]
  have hrule : ["a", "S", "b"] ∈ nested.rules "S" := by
    simp [nested, mem_rules_addRule, Rule.collapse, epsilonSymbol]
  refine ⟨nested_wellFormed, hSA, hAS, hunit "S" "A" hA, ?_,
    (hyields "S" hS _).2 (nested_derives 2)⟩
  exact (hrules "A" hA _).2 ⟨by simp, "S", .single ⟨hAS, hS⟩, hrule⟩

end FormalLanguages.Grammar
