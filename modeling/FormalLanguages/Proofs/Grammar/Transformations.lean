import FormalLanguages.Proofs.Grammar.Chomsky
import FormalLanguages.Proofs.Grammar.Reading
import FormalLanguages.Proofs.Grammar.Rename
import FormalLanguages.Proofs.Grammar.Simplify

/-!
# Grammars that can be made

Grammars are read from texts and transformed again and again. Each transformation gives a
well-formed grammar for the same language.
-/

namespace FormalLanguages

open Std

inductive Transformation where
  | eliminateNonGenerating
  | eliminateUnreachable
  | eliminateSelfUnits
  | eliminateDelegating
  | eliminateSingleRule
  | eliminateEpsilon
  | eliminateUnits
  | eliminateNull
  | eliminateNonSelfRecursive
  | collapseTrivialStar
  | trim
  | simplify
  | augmentStart (base : String)
  | rename
  | toChomsky

namespace Transformation

def apply (g : Grammar) : Transformation → Grammar
  | eliminateNonGenerating => g.eliminateNonGenerating
  | eliminateUnreachable => g.eliminateUnreachable
  | eliminateSelfUnits => g.eliminateSelfUnits
  | eliminateDelegating => g.eliminateDelegating
  | eliminateSingleRule => g.eliminateSingleRule
  | eliminateEpsilon => g.eliminateEpsilon
  | eliminateUnits => g.eliminateUnits
  | eliminateNull => g.eliminateNull
  | eliminateNonSelfRecursive => g.eliminateNonSelfRecursive
  | collapseTrivialStar => g.collapseTrivialStar
  | trim => g.trim
  | simplify => g.simplify
  | augmentStart base => g.augmentStart base
  | rename => g.rename
  | toChomsky => g.toChomsky

/-- A new start must not be named like the empty word. -/
def Allowed : Transformation → Prop
  | augmentStart base => base ≠ epsilonSymbol
  | _ => True

end Transformation

namespace Grammar

variable {g : Grammar} {t : Transformation} {ts : List Transformation}

theorem WellFormed.equivalent_apply (hg : g.WellFormed) (ht : t.Allowed) :
    g.Equivalent (t.apply g) := by
  cases t with
  | eliminateNonGenerating => exact hg.equivalent_eliminateNonGenerating
  | eliminateUnreachable => exact hg.equivalent_eliminateUnreachable
  | eliminateSelfUnits => exact hg.equivalent_eliminateSelfUnits
  | eliminateDelegating => exact hg.equivalent_eliminateDelegating
  | eliminateSingleRule => exact hg.equivalent_eliminateSingleRule
  | eliminateEpsilon => exact hg.equivalent_eliminateEpsilon
  | eliminateUnits => exact hg.equivalent_eliminateUnits
  | eliminateNull => exact hg.equivalent_eliminateNull
  | eliminateNonSelfRecursive => exact hg.equivalent_eliminateNonSelfRecursive
  | collapseTrivialStar => exact hg.equivalent_collapseTrivialStar
  | trim => exact hg.equivalent_trim
  | simplify => exact hg.equivalent_simplify
  | augmentStart base => exact hg.equivalent_augmentStart ht
  | rename => exact hg.equivalent_rename
  | toChomsky => exact hg.normalized.1

/-- A sequence of transformations keeps the language, too. -/
theorem WellFormed.equivalent_foldl_apply (hg : g.WellFormed) (hts : ∀ t ∈ ts, t.Allowed) :
    g.Equivalent (ts.foldl Transformation.apply g) := by
  induction ts generalizing g with
  | nil => exact .refl hg
  | cons t ts ih =>
    have hstep := hg.equivalent_apply (hts t (List.mem_cons_self ..))
    exact hstep.trans (ih hstep.wellFormed fun t ht => hts t (List.mem_cons_of_mem _ ht))

/-- The grammars that come out of a text. -/
inductive IsRead : Grammar → Prop
  | parse {T text g} : epsilonSymbol ∉ T → parse T text = .ok g → IsRead g
  | parseInferring {text g} : parseInferring text = .ok g → IsRead g

theorem IsRead.wellFormed (h : g.IsRead) : g.WellFormed := by
  cases h with
  | parse hT h => exact wellFormed_parse hT h
  | parseInferring h => exact wellFormed_parse (epsilon_not_inferred _) h

/-- However a grammar is made, its start comes first among its variables, and the empty word
stands alone if it is the symbol of a rule. -/
theorem wellFormed_of_transformations (hg : g.IsRead) (hts : ∀ t ∈ ts, t.Allowed) :
    (ts.foldl Transformation.apply g).WellFormed ∧
    (ts.foldl Transformation.apply g).vars.head? = some (ts.foldl Transformation.apply g).start ∧
    ∀ v, ∀ r ∈ (ts.foldl Transformation.apply g).rules v,
      epsilonSymbol ∈ r → r = Rule.epsilon := by
  have h := (hg.wellFormed.equivalent_foldl_apply hts).wellFormed
  refine ⟨h, rfl, fun v r hr hε => ?_⟩
  exact Decidable.byContradiction fun hne => h.epsilon_not_mem hr hne hε

theorem wellFormed_of_transformations_nested :
    ∃ g, parseInferring "S -> a S b | ~ | A\nA -> S".toList = .ok g ∧
      ([.simplify, .augmentStart "A", .eliminateEpsilon, .rename].foldl
        Transformation.apply g).WellFormed := by
  have hread : (parseInferring "S -> a S b | ~ | A\nA -> S".toList).map Grammar.start = .ok "S" := by
    decide +kernel
  obtain ⟨g, hg, -⟩ := exists_of_map_eq_ok hread
  refine ⟨g, hg, (wellFormed_of_transformations (.parseInferring hg) ?_).1⟩
  simp [Transformation.Allowed, epsilonSymbol]

end Grammar

end FormalLanguages
