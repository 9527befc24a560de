import FormalLanguages.Proofs.Grammar.Inline

/-!
# Simplified grammars

The loops of both rounds come to their end, since each step takes a variable away. A simplified
grammar is trimmed: what the last round of inlining leaves behind is cut off again.
-/

namespace FormalLanguages.Grammar

open Std

variable {g h : Grammar} {b : Rule} {u v : String}

/-! ### The loops -/

def mergeStep? (g : Grammar) : Option Grammar :=
  g.delegation?.map fun (v, u) => g.merge v u

/-- A round of inlining with loops that end only when there is no step to take. -/
def InlinesTo (g h : Grammar) : Prop :=
  ∃ k l, Exhausts mergeStep? g k ∧ Exhausts singleStep? k l ∧ h = l.eliminateNull.trim

theorem length_others_filter_lt (hv : v ∈ g.others) :
    (g.others.filter (· ≠ v)).length < g.others.length := by
  rw [List.length_filter_lt_length_iff_exists]
  exact ⟨v, hv, by simp⟩

/-- A merge takes one of the two variables out of the list. -/
theorem length_others_merge_lt (hv : v ∈ g.vars) (hu : u ∈ g.vars) (hne : u ≠ v) :
    (g.merge v u).others.length < g.others.length := by
  unfold merge
  dsimp only
  split
  · next hstart =>
    apply length_others_filter_lt
    exact (mem_vars_iff.1 hv).resolve_left fun e => hne (e ▸ hstart.symm)
  · next hstart =>
    apply length_others_filter_lt
    exact (mem_vars_iff.1 hu).resolve_left fun e => hstart e.symm

theorem length_others_mergeStep (hstep : g.mergeStep? = some h) :
    h.others.length < g.others.length := by
  obtain ⟨⟨v, u⟩, hdelegation, rfl⟩ := Option.map_eq_some_iff.1 hstep
  obtain ⟨hv, -, hu, hne⟩ := delegation?_eq_some hdelegation
  exact length_others_merge_lt hv hu hne

theorem Substitutes.length_others_lt (hgh : g.Substitutes h) :
    h.others.length < g.others.length := by
  obtain ⟨v, hv, -, f, -, rfl⟩ := hgh
  exact length_others_filter_lt hv

theorem exhausts_eliminateDelegating (g : Grammar) :
    Exhausts mergeStep? g g.eliminateDelegating :=
  exhausts_exhaust (P := fun _ => True) (fun g => g.others.length) (fun _ _ h _ => h)
    (fun _ _ _ => length_others_mergeStep) trivial (Nat.le_refl _)

theorem exhausts_of_substitutes {step? : Grammar → Option Grammar}
    (hstep : ∀ g h, step? g = some h → g.Substitutes h) (g : Grammar) :
    Exhausts step? g (exhaust step? g.others.length g) :=
  exhausts_exhaust (P := fun _ => True) (fun g => g.others.length) (fun _ _ h _ => h)
    (fun g h _ hgh => (hstep g h hgh).length_others_lt) trivial (Nat.le_refl _)

theorem exhausts_eliminateSingleRule (g : Grammar) :
    Exhausts singleStep? g g.eliminateSingleRule :=
  exhausts_of_substitutes (fun _ _ => substitutes_of_singleStep) g

theorem exhausts_eliminateNonSelfRecursive (g : Grammar) :
    Exhausts nonRecursiveStep? g g.eliminateNonSelfRecursive :=
  exhausts_of_substitutes (fun _ _ => substitutes_of_nonRecursiveStep) g

theorem inlinesTo_inlineOnce (g : Grammar) : g.InlinesTo g.inlineOnce :=
  ⟨_, _, g.exhausts_eliminateDelegating, exhausts_eliminateSingleRule _, rfl⟩

/-! ### What is left -/

theorem WellFormed.trimmed_inlineOnce (hg : g.WellFormed) (h : ∃ w, g.Derives w) :
    g.inlineOnce.Trimmed := by
  have h₁ := hg.equivalent_eliminateDelegating
  have h₂ := h₁.wellFormed.equivalent_eliminateSingleRule
  have h₃ := h₂.wellFormed.equivalent_eliminateNull
  obtain ⟨w, hw⟩ := h
  exact h₃.wellFormed.trimmed_trim ⟨w, ((h₁.trans (h₂.trans h₃)).derives w).2 hw⟩

/-- With the start alone there is nothing to inline. -/
theorem WellFormed.inlineOnce_empty (hg : g.WellFormed) :
    (Grammar.empty g.terminals g.start).inlineOnce = Grammar.empty g.terminals g.start := by
  show (Grammar.empty g.terminals g.start).eliminateNull.trim = _
  rw [eliminateNull, mapRules_empty, retain_empty]
  exact hg.empty.trim_eq_empty fun w => hg.not_derives_empty

theorem WellFormed.simplify_eq_empty (hg : g.WellFormed) (h : ∀ w, ¬ g.Derives w) :
    g.simplify = Grammar.empty g.terminals g.start := by
  rw [simplify, hg.trim_eq_empty h, hg.inlineOnce_empty, hg.inlineOnce_empty]

theorem WellFormed.trimmed_simplify (hg : g.WellFormed) (h : ∃ w, g.Derives w) :
    g.simplify.Trimmed := by
  have hequiv := hg.equivalent_trim.trans hg.equivalent_trim.wellFormed.equivalent_inlineOnce
  obtain ⟨w, hw⟩ := h
  exact hequiv.wellFormed.trimmed_inlineOnce ⟨w, (hequiv.derives w).2 hw⟩

/-- Simplifying ends with a grammar for the same language, whichever variable is the start then.
Each of its variables takes part in a derivation; when there is none, only the start is left. -/
theorem simplify_equivalent_trimmed (hg : g.WellFormed) :
    (∃ k, g.trim.InlinesTo k ∧ k.InlinesTo g.simplify) ∧
    g.Equivalent g.simplify ∧
    ((∀ w, ¬ g.Derives w) → g.simplify = Grammar.empty g.terminals g.start) ∧
    ((∃ w, g.Derives w) → g.simplify.Trimmed) :=
  ⟨⟨_, inlinesTo_inlineOnce _, inlinesTo_inlineOnce _⟩, hg.equivalent_simplify,
    hg.simplify_eq_empty, hg.trimmed_simplify⟩

/-- The start of `nested` gives way to the variable that delegates to it. -/
theorem simplify_nested : nested.start = "S" ∧ nested.simplify.start = "A" ∧
    nested.Equivalent nested.simplify ∧ nested.simplify.Trimmed := by
  obtain ⟨-, hequiv, -, htrimmed⟩ := simplify_equivalent_trimmed nested_wellFormed
  refine ⟨by decide +kernel, by decide +kernel, hequiv, htrimmed ⟨_, nested_derives 0⟩⟩

end FormalLanguages.Grammar
