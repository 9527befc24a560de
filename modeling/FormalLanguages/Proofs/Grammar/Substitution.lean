import FormalLanguages.Proofs.Grammar.Simplify

/-!
# Variables that give way to their rules

A variable other than the start is left out and its rules stand wherever it occurred, as long as
there is one with a single rule, or with no rule that mentions it. A variable without rules takes
the rules that mention it along. Each step leaves one variable less, and those that are left stand
for the same words as before.
-/

namespace FormalLanguages.Grammar

variable {g h : Grammar} {b : Rule} {v : String} {w : List String}

/-- Some variables are left out and occur in no rule any more. The start and the others stand for
the same words as before. -/
structure Inlined (g h : Grammar) : Prop where
  conservative : g.Conservative h
  start_eq : h.start = g.start
  not_mem : ∀ v ∈ g.vars, v ∉ h.vars → ∀ u, ∀ r ∈ h.rules u, v ∉ r

theorem WellFormed.inlined (hg : g.WellFormed) (hgh : g.Conservative h ∧ h.start = g.start) :
    g.Inlined h :=
  ⟨hgh.1, hgh.2, fun _ hv hout _ _ hr => hgh.1.not_mem_of_rule hg hv hout hr⟩

theorem Inlined.derives_iff (hgh : g.Inlined h) : h.Derives w ↔ g.Derives w :=
  (hgh.conservative.equivalent hgh.start_eq).derives w

/-- A variable with a single rule that does not mention it is found. -/
theorem mem_of_single?_eq_none (hnone : g.single? = none) (hv : v ∈ g.others)
    (hsole : ∀ r, r ∈ g.rules v ↔ r = b) : v ∈ b := by
  have hrule : g.soleRule? v = some b := soleRule?_eq_some_iff.2 (toList_eq_singleton hsole)
  have hpass := List.findSome?_eq_none_iff.1 hnone v hv
  simpa [hrule] using hpass

/-- A variable that no rule of its own mentions is found. -/
theorem exists_rule_of_nonRecursive?_eq_none (hnone : g.nonRecursive? = none) (hv : v ∈ g.others) :
    ∃ b ∈ g.rules v, v ∈ b := by
  have hpass := List.find?_eq_none.1 hnone v hv
  simpa using hpass

/-- Both loops end, and what they leave out is gone from all rules. In the end a single rule of a
variable other than the start mentions the variable, and each variable other than the start is
mentioned by a rule of its own, respectively. -/
theorem inlining_exact (hg : g.WellFormed) :
    (Exhausts singleStep? g g.eliminateSingleRule ∧ g.Inlined g.eliminateSingleRule ∧
      ∀ v ∈ g.eliminateSingleRule.others, ∀ b,
        (∀ r, r ∈ g.eliminateSingleRule.rules v ↔ r = b) → v ∈ b) ∧
    (Exhausts nonRecursiveStep? g g.eliminateNonSelfRecursive ∧
      g.Inlined g.eliminateNonSelfRecursive ∧
      ∀ v ∈ g.eliminateNonSelfRecursive.others,
        ∃ b ∈ g.eliminateNonSelfRecursive.rules v, v ∈ b) := by
  have hsingle := g.exhausts_eliminateSingleRule
  have hrecursive := g.exhausts_eliminateNonSelfRecursive
  constructor
  · refine ⟨hsingle, hg.inlined hg.conservative_eliminateSingleRule, fun v hv b => ?_⟩
    exact mem_of_single?_eq_none (Option.map_eq_none_iff.1 hsingle.step?_eq_none) hv
  · refine ⟨hrecursive, hg.inlined hg.conservative_eliminateNonSelfRecursive, fun v => ?_⟩
    exact exists_rule_of_nonRecursive?_eq_none
      (Option.map_eq_none_iff.1 hrecursive.step?_eq_none)

/-- The first loop puts `b E` in the place of `D`, although `E` has no rules. The second loop leaves
out `E` as well, with the rule that mentions it, and stops at `N`. -/
theorem inlining_mixed : mixed.WellFormed ∧
    "D" ∈ mixed.vars ∧ "D" ∉ mixed.eliminateSingleRule.vars ∧
    ["b", "E"] ∈ mixed.eliminateSingleRule.rules "S" ∧
    (∀ r ∈ mixed.eliminateSingleRule.rules "S", "D" ∉ r) ∧
    mixed.eliminateSingleRule.Derives ["a", "a"] ∧
    "E" ∉ mixed.eliminateNonSelfRecursive.vars ∧
    (∀ r ∈ mixed.eliminateNonSelfRecursive.rules "S", "E" ∉ r) ∧
    "N" ∈ mixed.eliminateNonSelfRecursive.others ∧
    (∃ b ∈ mixed.eliminateNonSelfRecursive.rules "N", "N" ∈ b) ∧
    mixed.eliminateNonSelfRecursive.Derives ["a", "a"] := by
  obtain ⟨⟨-, hsingle, -⟩, -, hrecursive, hmentions⟩ := inlining_exact mixed_wellFormed
  have hD : "D" ∈ mixed.vars := by decide +kernel
  have hE : "E" ∈ mixed.vars := by decide +kernel
  have hD_out : "D" ∉ mixed.eliminateSingleRule.vars := by decide +kernel
  have hE_out : "E" ∉ mixed.eliminateNonSelfRecursive.vars := by decide +kernel
  have hN : "N" ∈ mixed.eliminateNonSelfRecursive.others := by decide +kernel
  exact ⟨mixed_wellFormed, hD, hD_out, by decide +kernel, hsingle.not_mem "D" hD hD_out "S",
    hsingle.derives_iff.2 (mixed_derives 2), hE_out, hrecursive.not_mem "E" hE hE_out "S", hN,
    hmentions "N" hN, hrecursive.derives_iff.2 (mixed_derives 2)⟩

end FormalLanguages.Grammar
