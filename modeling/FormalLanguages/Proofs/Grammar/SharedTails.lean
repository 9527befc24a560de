import FormalLanguages.Proofs.Grammar.Binarize
import FormalLanguages.Proofs.Grammar.Isolate

/-!
# The variables for terminals and for ends of rules

Rules become short without a change to what the old variables stand for. The variables that are
added are new, and no two are the same. Equal ends of rules have one variable, whichever rules
they belong to; it has one rule and stands for just what the end does.
-/

namespace FormalLanguages.Grammar

open Std

variable {g : Grammar} {b c r t : Rule} {a v x : String} {w : List String}

/-! ### Terminals -/

/-- What is known of the variables for terminals in the end. -/
structure Isolates (g : Grammar) (s : Isolating) : Prop where
  added : ∀ v ∈ s.replaceTerminals.vars, v ∈ g.vars ∨ ∃ t : String, s.variableOf[t]? = some v
  /-- Either the grammar had the variable, for the terminal alone, or it is new. -/
  new : ∀ t v : String, s.variableOf[t]? = some v →
    g.terminalVariables[t]? = some v ∨ v ∉ g.vars ∧ v ∉ g.terminals
  injective : ∀ t t' v : String, s.variableOf[t]? = some v → s.variableOf[t']? = some v → t = t'
  /-- The terminal is the only rule of its variable. -/
  rule : ∀ t v : String, s.variableOf[t]? = some v →
    ∀ b, b ∈ s.replaceTerminals.rules v ↔ b = [t]

theorem Isolating.From.isolates {s : Isolating} (h : s.From g) : g.Isolates s where
  added := h.new
  new := h.reused
  injective t t' v ht ht' := by
    have hrules := (h.variableOf t v ht).2.2.2
    have hrules' := (h.variableOf t' v ht').2.2.2
    exact List.singleton_inj.1 ((hrules' [t]).1 ((hrules [t]).2 rfl))
  rule t v ht b := by
    have hrules := (h.variableOf t v ht).2.2.2
    rw [h.mem_rules_replaceTerminals]
    simp [hrules]

section Isolate

variable (hg : g.WellFormed)
include hg

/-- Only variables are left in longer rules. -/
theorem WellFormed.mem_vars_of_isolateTerminals (hb : b ∈ g.isolateTerminals.rules v)
    (hlen : 2 ≤ b.length) : ∀ a ∈ b, a ∈ g.isolateTerminals.vars := by
  obtain ⟨h, hterm⟩ := Isolating.From.isolating hg
  obtain ⟨r, hr, rfl⟩ := h.mem_rules_replaceTerminals.1 hb
  have hlong : r.length ≠ 1 ∧ 2 ≤ r.length := by
    split at hlen
    · omega
    · rw [List.length_map] at hlen
      omega
  rw [if_neg hlong.1]
  intro a ha
  obtain ⟨x, hx, rfl⟩ := List.mem_map.1 ha
  rcases h.new v (h.wellFormed.mem_vars_of_rule hr) with hv | ⟨t, ht⟩
  · exact h.name_mem_vars hg hterm ((h.rules v hv r).1 hr) hlong.2 hx
  · have hone := ((h.variableOf t v ht).2.2.2 r).1 hr
    exact absurd (congrArg List.length hone) hlong.1

end Isolate

/-! ### Ends of rules -/

/-- A rule is cut in one way only. -/
theorem Cut.unique {tails : ExtTreeMap (List String) String} (hb : Cut tails r b)
    (hc : Cut tails r c) : b = c := by
  rcases hb with ⟨hle, rfl⟩ | ⟨a, tail, x, rfl, hlen, hx, rfl⟩
  · rcases hc with ⟨-, rfl⟩ | ⟨a, tail, x, rfl, hlen, -, -⟩
    · rfl
    · simp only [List.length_cons] at hle
      omega
  · rcases hc with ⟨hle, -⟩ | ⟨a', tail', x', heq, -, hx', rfl⟩
    · simp only [List.length_cons] at hle
      omega
    · obtain ⟨rfl, rfl⟩ := List.cons_eq_cons.1 heq
      rw [hx] at hx'
      cases hx'
      rfl

/-- What is known of the ends of rules in the end. -/
structure SharesTails (g : Grammar) (s : Cutting) : Prop where
  /-- The rules of an old variable are its rules, each cut where the variable for its end comes. -/
  owners : ∀ v ∈ g.vars, ∀ b, b ∈ s.grammar.rules v ↔ ∃ r ∈ g.rules v, Cut s.tails r b
  /-- There is a variable for every end that is needed. -/
  complete : ∀ v, ∀ r ∈ g.rules v, ∃ b, Cut s.tails r b
  added : ∀ x ∈ s.grammar.vars, x ∈ g.vars ∨ ∃ t : List String, s.tails[t]? = some x
  /-- The variable for an end is new. -/
  new : ∀ (t : List String) x, s.tails[t]? = some x →
    x ∈ s.grammar.vars ∧ x ∉ g.vars ∧ x ∉ g.terminals
  injective : ∀ (t t' : List String) x, s.tails[t]? = some x → s.tails[t']? = some x → t = t'
  /-- Its only rule is the end, cut in turn. -/
  rule : ∀ (t : List String) x, s.tails[t]? = some x →
    ∃ b, Cut s.tails t b ∧ ∀ c, c ∈ s.grammar.rules x ↔ c = b
  /-- It stands for what the end stood for and stands for still. -/
  yields : ∀ (t : List String) x, s.tails[t]? = some x → ∀ w,
    (s.grammar.Yields [x] w ↔ g.Yields t w) ∧ (s.grammar.Yields t w ↔ g.Yields t w)

/-- Rules with the same end are cut there, and the same variable takes its place. -/
theorem SharesTails.exists_shared {s : Cutting} (h : g.SharesTails s) {u : String} {tail : Rule}
    (hu : u ∈ g.vars) (hv : v ∈ g.vars) (hlen : 2 ≤ tail.length) (hau : a :: tail ∈ g.rules u)
    {a' : String} (hav : a' :: tail ∈ g.rules v) :
    ∃ x, s.tails[tail]? = some x ∧ [a, x] ∈ s.grammar.rules u ∧ [a', x] ∈ s.grammar.rules v := by
  obtain ⟨b, ⟨hle, -⟩ | ⟨_, tail, x, heq, -, hx, -⟩⟩ := h.complete u _ hau
  · simp only [List.length_cons] at hle
    omega
  obtain ⟨rfl, rfl⟩ := List.cons_eq_cons.1 heq
  exact ⟨x, hx, (h.owners u hu _).2 ⟨_, hau, .inr ⟨_, _, x, rfl, hlen, hx, rfl⟩⟩,
    (h.owners v hv _).2 ⟨_, hav, .inr ⟨_, _, x, rfl, hlen, hx, rfl⟩⟩⟩

section Binarize

variable (hg : g.WellFormed)
include hg

theorem WellFormed.mem_vars_binarize (hv : v ∈ g.vars) : v ∈ g.binarize.vars := by
  obtain ⟨owner, h, -⟩ := Cutting.from_cutting hg
  exact h.vars v hv

theorem WellFormed.sharesTails_cutting : g.SharesTails g.cutting := by
  obtain ⟨owner, h, hdone⟩ := Cutting.from_cutting hg
  have hold : ∀ (t : List String) x, g.cutting.tails[t]? = some x →
      ∀ a ∈ t, a ∈ g.cutting.grammar.vars → a ∈ g.vars := by
    intro t x hx a ha hvar
    rcases ((h.tail t x hx).2.2.2.2 a ha).1 with hterm | hv
    · exact absurd (h.terminals ▸ hterm) (h.wellFormed.disjoint a hvar)
    · exact hv
  refine ⟨fun v hv b => ?_, fun v r hr => ?_, h.new, fun t x hx => ?_, h.injective,
    fun t x hx => ?_, fun t x hx w => ?_⟩
  · constructor
    · exact (hdone v hv).sound b
    · rintro ⟨r, hr, hcut⟩
      obtain ⟨c, hc, hcut'⟩ := (hdone v hv).complete r hr
      rwa [hcut.unique hcut']
  · obtain ⟨b, -, hcut⟩ := (hdone v (hg.mem_vars_of_rule hr)).complete r hr
    exact ⟨b, hcut⟩
  · obtain ⟨hv, hterm, -⟩ := h.tail t x hx
    exact ⟨h.mem_vars hx, hv, hterm⟩
  · exact ((h.made t x hx).resolve_left List.not_mem_nil).2
  · have hkept := h.yields_iff hg hdone (w := w) (hold t x hx)
    refine ⟨⟨fun hw => ?_, fun hw => h.yields_tail t hx (hkept.2 hw)⟩, hkept⟩
    obtain ⟨c, hc, hcw⟩ := h.exists_yields hg hdone hw
    rw [Rule.expands_singleton_iff] at hc
    rcases hc with hc | ⟨-, hnot⟩
    · exact h.injective c t x hc hx ▸ hcw
    · exact absurd hx (hnot t)

/-- If longer rules have variables only, those that are cut have two, and no rule is left that is
longer. -/
theorem WellFormed.short_of_mem_binarize
    (hlong : ∀ v, ∀ r ∈ g.rules v, 2 ≤ r.length → ∀ a ∈ r, a ∈ g.vars)
    (hb : b ∈ g.binarize.rules v) :
    b.length ≤ 2 ∧ (b.length = 2 → ∀ a ∈ b, a ∈ g.binarize.vars) := by
  obtain ⟨owner, h, -⟩ := Cutting.from_cutting hg
  obtain ⟨r, hcut, hr⟩ := hg.exists_cut_of_mem_binarize hb
  have hvars : 2 ≤ r.length → ∀ a ∈ r, a ∈ g.vars := by
    rcases hr with hr | ⟨-, hsym⟩
    · exact hlong v r hr
    · intro _ a ha
      obtain ⟨u, r', hr', hlen, har⟩ := mem_longRuleSymbols.1 (hsym a ha).2
      exact hlong u r' hr' hlen a har
  obtain ⟨hle, rfl⟩ | ⟨a, tail, x, rfl, hlen, hx, rfl⟩ := hcut
  · exact ⟨hle, fun htwo a ha => h.vars a (hvars (Nat.le_of_eq htwo.symm) a ha)⟩
  · refine ⟨Nat.le_refl 2, fun _ y hy => ?_⟩
    rcases List.mem_pair.1 hy with rfl | rfl
    · exact h.vars _ (hvars (Nat.le_add_right_of_le hlen) _ (List.mem_cons_self ..))
    · exact h.mem_vars hx

end Binarize

/-! ### Both together -/

/-- Each search for a name ends with the first one that is not taken. In the end the old variables
stand for what they stood for, no rule has more than two symbols, and rules of two symbols have
variables only. The variables for terminals and those for ends of rules are new, and equal ends of
rules have the same one. -/
theorem isolateTerminals_binarize_exact (hg : g.WellFormed) :
    (∀ base taken n, n ≤ firstFree (numbered base) taken n ∧
      numbered base (firstFree (numbered base) taken n) ∉ taken ∧
      ∀ k, n ≤ k → k < firstFree (numbered base) taken n → numbered base k ∈ taken) ∧
    (∀ v ∈ g.vars, v ∈ g.isolateTerminals.binarize.vars ∧
      ∀ w, g.isolateTerminals.binarize.Yields [v] w ↔ g.Yields [v] w) ∧
    (∀ v, ∀ b ∈ g.isolateTerminals.binarize.rules v, b.length ≤ 2 ∧
      (b.length = 2 → ∀ a ∈ b, a ∈ g.isolateTerminals.binarize.vars)) ∧
    g.Isolates g.isolating ∧ g.isolateTerminals.SharesTails g.isolateTerminals.cutting ∧
    ∀ u ∈ g.isolateTerminals.vars, ∀ v ∈ g.isolateTerminals.vars, ∀ a c tail, 2 ≤ tail.length →
      a :: tail ∈ g.isolateTerminals.rules u → c :: tail ∈ g.isolateTerminals.rules v →
      ∃ x, g.isolateTerminals.cutting.tails[tail]? = some x ∧
        [a, x] ∈ g.isolateTerminals.binarize.rules u ∧
        [c, x] ∈ g.isolateTerminals.binarize.rules v := by
  obtain ⟨hiso, hterm⟩ := Isolating.From.isolating hg
  have hh : g.isolateTerminals.WellFormed := hiso.replaceTerminals
  have hshares := hh.sharesTails_cutting
  refine ⟨fun base taken n => ⟨le_firstFree, firstFree_not_mem (numbered_injective base),
    fun k => mem_of_lt_firstFree (numbered_injective base)⟩, fun v hv => ?_, fun v b hb => ?_,
    hiso.isolates, hshares, fun u hu v hv a c tail hlen hau hcv => ?_⟩
  · have hv' : v ∈ g.isolateTerminals.vars := hiso.vars v hv
    refine ⟨hh.mem_vars_binarize hv', fun w => (hh.yields_binarize_iff ?_).trans
      (hg.yields_isolateTerminals_iff ?_)⟩
    · exact fun a ha _ => List.mem_singleton.1 ha ▸ hv'
    · exact fun a ha _ => List.mem_singleton.1 ha ▸ hv
  · exact hh.short_of_mem_binarize (fun v r => hg.mem_vars_of_isolateTerminals) hb
  · exact hshares.exists_shared hu hv hlen hau hcv

/-- A terminal has a variable of its own, two variables have rules with the same end, and the first
name for an end is taken. -/
def overlapping : Grammar :=
  (Grammar.empty (.ofList ["a", "b", "c"]) "S").addRules
    [("S", ["T", "a", "b", "c"]), ("S", ["a", "b", "c"]), ("S1", ["b", "a", "b", "c"]),
      ("T", ["c"])]

theorem overlapping_wellFormed : overlapping.WellFormed := by
  apply wellFormed_of_rules <;> simp [epsilonSymbol]

theorem binarize_overlapping : overlapping.WellFormed ∧
    ∃ x, x ∉ overlapping.isolateTerminals.vars ∧
      ["T", x] ∈ overlapping.isolateTerminals.binarize.rules "S" ∧
      ["U2", x] ∈ overlapping.isolateTerminals.binarize.rules "S1" ∧
      overlapping.isolateTerminals.binarize.Yields [x] ["a", "b", "c"] := by
  obtain ⟨-, -, -, -, hshares, hshared⟩ := isolateTerminals_binarize_exact overlapping_wellFormed
  obtain ⟨x, hx, hS, hS1⟩ := hshared "S" (by decide +kernel) "S1" (by decide +kernel) "T" "U2"
    ["U1", "U2", "T"] (by decide) (by decide +kernel) (by decide +kernel)
  have hyields : ∀ v t, [t] ∈ overlapping.isolateTerminals.rules v →
      t ∈ overlapping.isolateTerminals.terminals → overlapping.isolateTerminals.Yields [v] [t] :=
    fun v t hv ht => .of_rule hv (.terminal ht .nil)
  have hend : overlapping.isolateTerminals.Yields ["U1", "U2", "T"] ["a", "b", "c"] :=
    (hyields "U1" "a" (by decide +kernel) (by decide +kernel)).append
      ((hyields "U2" "b" (by decide +kernel) (by decide +kernel)).append
        (hyields "T" "c" (by decide +kernel) (by decide +kernel)))
  exact ⟨overlapping_wellFormed, x, (hshares.new _ x hx).2.1, hS, hS1,
    (hshares.yields _ x hx _).1.2 hend⟩

end FormalLanguages.Grammar
