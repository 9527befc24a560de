import FormalLanguages.Proofs.Grammar.Analysis

/-!
# Sentential forms

A derivation taken step by step: a variable in a form gives way to the symbols of one of its rules.
The words that a rule yields are the forms without variables to which the steps lead from it. The
sets found by the analyses are what these steps make of them.
-/

namespace FormalLanguages.Grammar

open Std Relation

variable {g : Grammar} {r : Rule} {v : String} {e e' f f' w : List String}

/-- One step: a variable gives way to the symbols of a rule, the rule for the empty word to
nothing. -/
inductive Rewrites (g : Grammar) : List String → List String → Prop
  | rule (x y : List String) {v : String} {b : Rule} : b ∈ g.rules v →
    Rewrites g (x ++ v :: y) (x ++ b.filter (· ≠ epsilonSymbol) ++ y)

def RewritesTo (g : Grammar) : List String → List String → Prop := ReflTransGen g.Rewrites

theorem Rewrites.congr (h : g.Rewrites e f) (x y : List String) :
    g.Rewrites (x ++ e ++ y) (x ++ f ++ y) := by
  obtain ⟨x', y', hb⟩ := h
  simpa using Rewrites.rule (x ++ x') (y' ++ y) hb

theorem RewritesTo.congr (h : g.RewritesTo e f) (x y : List String) :
    g.RewritesTo (x ++ e ++ y) (x ++ f ++ y) := by
  induction h with
  | refl => exact .refl
  | tail _ hstep ih => exact ih.tail (hstep.congr x y)

theorem RewritesTo.append (he : g.RewritesTo e e') (hf : g.RewritesTo f f') :
    g.RewritesTo (e ++ f) (e' ++ f') := by
  have hleft := he.congr [] f
  have hright := hf.congr e' []
  simp only [List.nil_append, List.append_nil] at hleft hright
  exact hleft.trans hright

/-! ### Yields step by step -/

theorem WellFormed.rewritesTo_of_yields (hg : g.WellFormed) (h : g.Yields r w) :
    g.RewritesTo (r.filter (· ≠ epsilonSymbol)) w := by
  induction h with
  | nil => exact .refl
  | epsilon _ ih => simpa using ih
  | @terminal t r w ht _ ih =>
    have hne : t ≠ epsilonSymbol := fun e => hg.epsilon_not_terminal (e ▸ ht)
    rw [List.filter_cons_of_pos (by simpa using hne)]
    exact RewritesTo.append (e := [t]) .refl ih
  | @rule v b r u w hb _ _ ihb ihr =>
    rw [List.filter_cons_of_pos (by simpa using hg.ne_epsilon (hg.mem_vars_of_rule hb))]
    exact .head (.rule [] _ hb) (ihb.append ihr)

theorem WellFormed.yields_of_rewrites (hg : g.WellFormed) (h : g.Rewrites e f)
    (hw : g.Yields f w) : g.Yields e w := by
  obtain ⟨x, y, hb⟩ := h
  obtain ⟨u, u', rfl, hu, hy⟩ := hw.exists_of_append
  obtain ⟨p, q, rfl, hx, hq⟩ := hu.exists_of_append
  rw [List.append_assoc]
  exact hx.append ((Yields.of_rule hb (hg.yields_filter_iff.1 hq)).append hy)

theorem WellFormed.yields_of_rewritesTo (hg : g.WellFormed) (h : g.RewritesTo e f)
    (hw : g.Yields f w) : g.Yields e w := by
  induction h using ReflTransGen.head_induction_on with
  | refl => exact hw
  | head hstep _ ih => exact hg.yields_of_rewrites hstep ih

theorem yields_self (hw : ∀ t ∈ w, t ∈ g.terminals) : g.Yields w w := by
  induction w with
  | nil => exact .nil
  | cons t w ih =>
    exact .terminal (hw t (List.mem_cons_self ..)) (ih fun s hs => hw s (List.mem_cons_of_mem t hs))

/-- What a variable yields are the forms of terminals to which the steps lead. -/
theorem WellFormed.yields_iff_rewritesTo (hg : g.WellFormed) (hv : v ∈ g.vars) :
    g.Yields [v] w ↔ g.RewritesTo [v] w ∧ ∀ t ∈ w, t ∈ g.terminals := by
  have hself : [v].filter (· ≠ epsilonSymbol) = [v] := by simpa using hg.ne_epsilon hv
  constructor
  · intro h
    exact ⟨hself ▸ hg.rewritesTo_of_yields h, h.mem_terminals⟩
  · rintro ⟨h, hw⟩
    exact hg.yields_of_rewritesTo h (yields_self hw)

/-! ### Exactness of the analyses -/

theorem WellFormed.mem_generating_iff_exists_form (hg : g.WellFormed) :
    v ∈ g.generating ↔ v ∈ g.vars ∧ ∃ w, g.RewritesTo [v] w ∧ ∀ t ∈ w, t ∈ g.terminals := by
  rw [hg.mem_generating_iff]
  exact and_congr_right fun hv => exists_congr fun w => hg.yields_iff_rewritesTo hv

theorem WellFormed.mem_nullable_iff_rewritesTo (hg : g.WellFormed) :
    v ∈ g.nullable ↔ v ∈ g.vars ∧ g.RewritesTo [v] [] := by
  have hempty : v ∈ g.vars → (v ∈ g.nullable ↔ g.RewritesTo [v] []) := by
    intro hv
    rw [mem_nullable_iff (hg.ne_epsilon hv), hg.yields_iff_rewritesTo hv]
    simp
  constructor
  · intro hv
    have hvar := hg.mem_vars_of_leastSet hv
    exact ⟨hvar, (hempty hvar).1 hv⟩
  · rintro ⟨hvar, h⟩
    exact (hempty hvar).2 h

/-- The variables of a form can be reached. -/
theorem WellFormed.mem_reachable_of_rewritesTo (hg : g.WellFormed)
    (h : g.RewritesTo [g.start] f) : ∀ v ∈ f, v ∈ g.vars → v ∈ g.reachable := by
  induction h with
  | refl =>
    intro v hv _
    exact List.mem_singleton.1 hv ▸ start_mem_reachable g
  | tail _ hstep ih =>
    obtain ⟨x, y, hb⟩ := hstep
    intro v hv hvar
    rcases List.mem_append.1 hv with hv | hv
    · rcases List.mem_append.1 hv with hv | hv
      · exact ih v (List.mem_append_left _ hv) hvar
      · have hold := ih _ (List.mem_append_right x (List.mem_cons_self ..)) (hg.mem_vars_of_rule hb)
        exact mem_reachable_of_rule hold hb (List.mem_filter.1 hv).1 hvar
    · exact ih v (List.mem_append_right _ (List.mem_cons_of_mem _ hv)) hvar

theorem WellFormed.exists_rewritesTo_of_reachable (hg : g.WellFormed) (hv : v ∈ g.reachable) :
    ∃ f, g.RewritesTo [g.start] f ∧ v ∈ f := by
  have hpath := mem_reachable_iff.1 hv
  clear hv
  induction hpath with
  | refl => exact ⟨_, .refl, List.mem_singleton_self _⟩
  | @tail u v _ hstep ih =>
    obtain ⟨f, hf, hu⟩ := ih
    obtain ⟨r, hr, hvr, hvar⟩ := mem_successors.1 hstep
    obtain ⟨x, y, rfl⟩ := List.append_of_mem hu
    refine ⟨_, hf.tail (.rule x y hr), List.mem_append_left _ (List.mem_append_right _ ?_)⟩
    exact List.mem_filter.2 ⟨hvr, by simpa using hg.ne_epsilon hvar⟩

theorem WellFormed.mem_reachable_iff_exists_form (hg : g.WellFormed) :
    v ∈ g.reachable ↔ v ∈ g.vars ∧ ∃ f, g.RewritesTo [g.start] f ∧ v ∈ f := by
  constructor
  · intro hv
    refine ⟨?_, hg.exists_rewritesTo_of_reachable hv⟩
    rcases mem_reachable_iff.1 hv |>.cases_tail with rfl | ⟨u, -, hstep⟩
    · exact start_mem_vars g
    · exact mem_vars_of_mem_successors hstep
  · rintro ⟨hvar, f, hf, hv⟩
    exact hg.mem_reachable_of_rewritesTo hf v hv hvar

/-- The loops end, in whatever order the first two take the variables. They find the variables
that lead to a form of terminals, those that lead to the empty form, and those that occur in a form
to which the start leads. -/
theorem analyses_exact (hg : g.WellFormed) :
    (∀ v, v ∈ g.generating ↔
      v ∈ g.vars ∧ ∃ w, g.RewritesTo [v] w ∧ ∀ t ∈ w, t ∈ g.terminals) ∧
    (∀ v, v ∈ g.nullable ↔ v ∈ g.vars ∧ g.RewritesTo [v] []) ∧
    (∀ v, v ∈ g.reachable ↔ v ∈ g.vars ∧ ∃ f, g.RewritesTo [g.start] f ∧ v ∈ f) ∧
    EndsWith (g.Grows fun s r => ∀ a ∈ r, a = epsilonSymbol ∨ a ∈ g.terminals ∨ a ∈ s)
      g.generating ∅ ∧
    EndsWith (g.Grows fun s r => ∀ a ∈ r, a = epsilonSymbol ∨ a ∈ s) g.nullable ∅ ∧
    ∃ found, Search.Spreads .stack (fun _ => g.successors) [g.start] found ∧
      g.reachable = found.seen := by
  exact ⟨fun v => hg.mem_generating_iff_exists_form, fun v => hg.mem_nullable_iff_rewritesTo,
    fun v => hg.mem_reachable_iff_exists_form, g.endsWith_generating, g.endsWith_nullable,
    g.exists_spreads_reachable⟩

/-- In `mixed` the variable `D` leads to no word, `F` occurs in no form, and `E` occurs in one
although it has no rules. -/
theorem analyses_mixed : mixed.WellFormed ∧
    (∃ w, mixed.RewritesTo ["S"] w ∧ ∀ t ∈ w, t ∈ mixed.terminals) ∧
    (¬ ∃ w, mixed.RewritesTo ["D"] w ∧ ∀ t ∈ w, t ∈ mixed.terminals) ∧
    mixed.RewritesTo ["S"] [] ∧ ¬ mixed.RewritesTo ["F"] [] ∧
    (∃ f, mixed.RewritesTo [mixed.start] f ∧ "E" ∈ f) ∧
    ¬ ∃ f, mixed.RewritesTo [mixed.start] f ∧ "F" ∈ f := by
  obtain ⟨hgenerating, hnullable, hreachable, -⟩ := analyses_exact mixed_wellFormed
  have hD : "D" ∈ mixed.vars := by decide +kernel
  have hF : "F" ∈ mixed.vars := by decide +kernel
  refine ⟨mixed_wellFormed, ((hgenerating "S").1 (by decide +kernel)).2, fun h => ?_,
    ((hnullable "S").1 (by decide +kernel)).2, fun h => ?_,
    ((hreachable "E").1 (by decide +kernel)).2, fun h => ?_⟩
  · exact absurd ((hgenerating "D").2 ⟨hD, h⟩) (by decide +kernel)
  · exact absurd ((hnullable "F").2 ⟨hF, h⟩) (by decide +kernel)
  · exact absurd ((hreachable "F").2 ⟨hF, h⟩) (by decide +kernel)

end FormalLanguages.Grammar
