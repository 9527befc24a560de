import FormalLanguages.Proofs.Grammar.Binarize
import FormalLanguages.Proofs.Grammar.Epsilon
import FormalLanguages.Proofs.Grammar.Isolate
import FormalLanguages.Proofs.Grammar.Units

/-!
# Chomsky normal form

Each pass keeps the language and brings the rules closer to the normal form: first only the start
has a rule for the empty word and a rule of one symbol is a terminal, then the longer rules consist
of variables, and then there are no rules longer than two. The start occurs in no rule all along.
-/

namespace FormalLanguages.Grammar

open Std Relation

variable {g : Grammar} {b r : Rule} {base t u v : String} {w : List String}

/-- The rule for the empty word, of the start alone; or one terminal; or at least two symbols with
a property, none of which is the start. -/
def Shaped (g : Grammar) (P : String → Prop) (v : String) (b : Rule) : Prop :=
  b = Rule.epsilon ∧ v = g.start ∨ (∃ t ∈ g.terminals, b = [t]) ∨
    2 ≤ b.length ∧ ∀ a ∈ b, P a ∧ a ≠ g.start

/-! ### Before terminals are isolated -/

/-- A start that occurs in no rule is reached by rules of one variable from itself alone. -/
theorem StartApart.eq_of_unitReach (h : g.StartApart) (hv : g.UnitReach v g.start) :
    v = g.start := by
  rcases hv.cases_tail with heq | ⟨u, -, hstep, -⟩
  · exact heq.symm
  · exact absurd (List.mem_singleton_self _) (h u _ hstep)

theorem WellFormed.eliminateUnits_shape (hg : g.WellFormed) (h : g.StartApart)
    (hε : ∀ v, Rule.epsilon ∈ g.rules v → v = g.start) (hb : b ∈ g.eliminateUnits.rules v) :
    g.eliminateUnits.Shaped (fun _ => True) v b := by
  obtain ⟨s, hs, heq, -⟩ := hg.exists_unfolding
  obtain ⟨hunit, u, hvu, hb⟩ := hg.mem_rules_eliminateUnits.1 hb
  rw [heq, Shaped, hs.start, hs.terminals]
  rcases hg.isRule hb with rfl | ⟨hne, hsym⟩
  · have hu := hε u hb
    rw [hu] at hvu
    exact .inl ⟨rfl, h.eq_of_unitReach hvu⟩
  · match b, hne with
    | [a], _ =>
      rcases hsym a (List.mem_singleton_self a) with ha | ha
      · exact .inr (.inl ⟨a, ha, rfl⟩)
      · exact absurd (isUnitRule_iff.2 ⟨a, ha, rfl⟩) hunit
    | a :: a' :: c, _ =>
      exact .inr (.inr ⟨by simp, fun x hx => ⟨trivial, fun e => h u _ hb (e ▸ hx)⟩⟩)

/-- Trimming leaves no other rules. -/
theorem WellFormed.trim_shape {P : String → Prop} (hg : g.WellFormed)
    (h : ∀ v, ∀ b ∈ g.rules v, g.Shaped P v b) :
    ∀ v, ∀ b ∈ g.trim.rules v, g.trim.Shaped P v b := by
  intro v b hb
  rw [Shaped, start_trim, hg.equivalent_trim.terminals]
  exact h v b (hg.mem_rules_of_trim hb)

/-! ### Isolating terminals -/

/-- In a longer rule the name of a symbol is a variable other than the start. -/
theorem Isolating.From.isolated_name {s : Isolating} (hs : s.From g) (hg : g.WellFormed)
    (hterm : ∀ t ∈ g.longRuleSymbols, t ∈ g.terminals → t ∈ s.variableOf) (hr : r ∈ g.rules v)
    (hlen : 2 ≤ r.length) {x : String} (hx : x ∈ r) (hne : x ≠ g.start) :
    s.name x ∈ s.grammar.vars ∧ s.name x ≠ g.start := by
  refine ⟨hs.name_mem_vars hg hterm hr hlen hx, ?_⟩
  rcases name_eq s x with ⟨heq, -⟩ | hname
  · rwa [heq]
  · exact (hs.variableOf x _ hname).2.2.1

theorem WellFormed.isolateTerminals_shape (hg : g.WellFormed)
    (h : ∀ v, ∀ b ∈ g.rules v, g.Shaped (fun _ => True) v b) :
    ∀ v, ∀ b ∈ g.isolateTerminals.rules v,
      g.isolateTerminals.Shaped (· ∈ g.isolateTerminals.vars) v b := by
  obtain ⟨hs, hterm⟩ := Isolating.From.isolating hg
  intro v b hb
  have hstart : g.isolateTerminals.start = g.start := hs.start
  have hterminals : g.isolateTerminals.terminals = g.terminals := hs.terminals
  rw [Shaped, hstart, hterminals]
  obtain ⟨r, hr, rfl⟩ := hs.mem_rules_replaceTerminals.1 hb
  rcases hs.new v (hs.wellFormed.mem_vars_of_rule hr) with hv | ⟨t, ht⟩
  · rw [hs.rules v hv] at hr
    rcases h v r hr with ⟨rfl, hv⟩ | ⟨t, ht, rfl⟩ | ⟨hlen, hne⟩
    · exact .inl ⟨rfl, hv⟩
    · exact .inr (.inl ⟨t, ht, rfl⟩)
    · right; right
      rw [if_neg (by omega)]
      refine ⟨by simpa using hlen, fun a ha => ?_⟩
      obtain ⟨x, hx, rfl⟩ := List.mem_map.1 ha
      exact hs.isolated_name hg hterm hr hlen hx (hne x hx).2
  · obtain ⟨hterm, -, -, hrules⟩ := hs.variableOf t v ht
    rw [(hrules r).1 hr]
    exact .inr (.inl ⟨t, hterm, rfl⟩)

/-! ### Cutting long rules -/

def IsChomskyRule (g : Grammar) (v : String) (b : Rule) : Prop :=
  b = Rule.epsilon ∧ v = g.start ∨ (∃ t ∈ g.terminals, b = [t]) ∨
    ∃ x ∈ g.others, ∃ y ∈ g.others, b = [x, y]

theorem WellFormed.isChomskyRule (hg : g.WellFormed) (h : g.IsChomskyRule v b) :
    g.isChomskyRule v b := by
  rcases h with ⟨rfl, rfl⟩ | ⟨t, ht, rfl⟩ | ⟨x, hx, y, hy, rfl⟩
  · simp [Grammar.isChomskyRule, Rule.epsilon]
  · simp [Grammar.isChomskyRule, ht]
  · simp [Grammar.isChomskyRule, mem_vars_iff, hx, hy, hg.ne_start hx, hg.ne_start hy]

theorem mem_others_of_ne (hv : v ∈ g.vars) (hne : v ≠ g.start) : v ∈ g.others :=
  (mem_vars_iff.1 hv).resolve_left hne

theorem isChomsky_iff : g.isChomsky ↔ ∀ v, ∀ b ∈ g.rules v, g.isChomskyRule v b := by
  simp only [isChomsky, List.all_eq_true, ExtTreeSet.mem_toList, Prod.forall, mem_rules_iff]
  grind

theorem Cut.eq_of_length_eq_one {tails : ExtTreeMap (List String) String} (hb : Cut tails r b)
    (hlen : r.length = 1) : b = r := by
  rcases hb with ⟨-, hb⟩ | ⟨a, tail, x, rfl, htail, -, -⟩
  · exact hb
  · simp only [List.length_cons] at hlen
    omega

theorem cut_shape {s : Cutting} {owner : String} (h : Cutting.From g owner [] s)
    (hb : Cut s.tails r b) (hlen : 2 ≤ r.length)
    (hr : ∀ a ∈ r, a ∈ g.vars ∧ a ≠ g.start) : s.grammar.IsChomskyRule v b := by
  have hothers : ∀ a ∈ r, a ∈ s.grammar.others := by
    intro a ha
    obtain ⟨hvar, hne⟩ := hr a ha
    exact mem_others_of_ne (h.vars a hvar) (h.start ▸ hne)
  rcases hb with ⟨hle, rfl⟩ | ⟨a, tail, x, rfl, -, hx, rfl⟩
  · match b, hle, hlen with
    | [x, y], _, _ => exact .inr (.inr ⟨x, hothers x (by simp), y, hothers y (by simp), rfl⟩)
  · have hxv := (h.tail tail x hx).1
    have hxs : x ≠ s.grammar.start := fun e => hxv (e ▸ h.start ▸ start_mem_vars g)
    exact .inr (.inr ⟨a, hothers a (List.mem_cons_self ..), x,
      mem_others_of_ne (h.mem_vars hx) hxs, rfl⟩)

theorem WellFormed.binarize_shape (hg : g.WellFormed)
    (h : ∀ v, ∀ b ∈ g.rules v, g.Shaped (· ∈ g.vars) v b) :
    ∀ v, ∀ b ∈ g.binarize.rules v, g.binarize.IsChomskyRule v b := by
  obtain ⟨owner, hs, -⟩ := Cutting.from_cutting hg
  intro v b hb
  obtain ⟨r, hcut, hr | ⟨hlen, hsym⟩⟩ := hg.exists_cut_of_mem_binarize hb
  · rcases h v r hr with ⟨rfl, hv⟩ | ⟨t, hterm, rfl⟩ | ⟨hlen, hsym⟩
    · have hb : b = Rule.epsilon := hcut.eq_of_length_eq_one rfl
      exact .inl ⟨hb, hs.start ▸ hv⟩
    · have hb : b = [t] := hcut.eq_of_length_eq_one rfl
      exact .inr (.inl ⟨t, hs.terminals ▸ hterm, hb⟩)
    · exact cut_shape hs hcut hlen hsym
  · apply cut_shape hs hcut hlen
    intro a ha
    obtain ⟨u, r, hr, hlen', ha⟩ := mem_longRuleSymbols.1 (hsym a ha).2
    rcases h u r hr with ⟨rfl, -⟩ | ⟨t, -, rfl⟩ | ⟨-, hsym⟩
    · simp [Rule.epsilon] at hlen'
    · simp at hlen'
    · exact hsym a ha

theorem WellFormed.trim_isChomskyRule (hg : g.WellFormed)
    (h : ∀ v, ∀ b ∈ g.rules v, g.IsChomskyRule v b) :
    ∀ v, ∀ b ∈ g.trim.rules v, g.trim.IsChomskyRule v b := by
  intro v b hb
  have heq := hg.equivalent_trim
  have hsym := fun a (ha : a ∈ b) => heq.wellFormed.symbol_of_mem hb ha
  -- a variable of the grammar that is left in a rule is a variable still
  have hothers : ∀ a ∈ b, a ∈ g.others → a ∈ g.trim.others := by
    intro a ha ho
    have hvar : a ∈ g.vars := List.mem_cons_of_mem _ ho
    rcases hsym a ha with rfl | hterm | hvar'
    · exact absurd hvar hg.epsilon_not_variable
    · exact absurd (heq.terminals ▸ hterm) (hg.disjoint a hvar)
    · exact mem_others_of_ne hvar' (start_trim g ▸ hg.ne_start ho)
  rw [IsChomskyRule, start_trim, heq.terminals]
  rcases h v b (hg.mem_rules_of_trim hb) with hε | ht | ⟨x, hx, y, hy, rfl⟩
  · exact .inl hε
  · exact .inr (.inl ht)
  · exact .inr (.inr ⟨x, hothers x (by simp) hx, y, hothers y (by simp) hy, rfl⟩)

theorem startApart_of_isChomskyRule (hg : g.WellFormed)
    (h : ∀ v, ∀ b ∈ g.rules v, g.IsChomskyRule v b) : g.StartApart := by
  have hothers : g.start ∉ g.others := fun hs => hg.ne_start hs rfl
  intro v b hb hmem
  rcases h v b hb with ⟨rfl, -⟩ | ⟨t, ht, rfl⟩ | ⟨x, hx, y, hy, rfl⟩
  · exact hg.epsilon_not_variable (List.mem_singleton.1 hmem ▸ start_mem_vars g)
  · exact hg.disjoint _ (start_mem_vars g) (List.mem_singleton.1 hmem ▸ ht)
  · rcases List.mem_pair.1 hmem with heq | heq
    · exact hothers (heq ▸ hx)
    · exact hothers (heq ▸ hy)

theorem eq_start_of_epsilon_isChomskyRule (hg : g.WellFormed)
    (h : g.IsChomskyRule v Rule.epsilon) : v = g.start := by
  rcases h with ⟨-, hv⟩ | ⟨t, ht, heq⟩ | ⟨x, -, y, -, heq⟩
  · exact hv
  · cases heq
    exact absurd ht hg.epsilon_not_terminal
  · cases heq

theorem epsilon_mem_rules_iff (hg : g.WellFormed)
    (h : ∀ v, ∀ b ∈ g.rules v, g.IsChomskyRule v b) :
    Rule.epsilon ∈ g.rules g.start ↔ g.Derives [] := by
  constructor
  · exact fun hε => .of_rule hε (.epsilon .nil)
  · intro hw
    obtain ⟨b, hb, hw⟩ := (hg.yields_variable_iff (start_mem_vars g)).1 hw
    have hempty := (startApart_of_isChomskyRule hg h).eq_start_of_yields_empty hg
      (fun v hε => eq_start_of_epsilon_isChomskyRule hg (h v _ hε)) hw
    rcases h g.start b hb with ⟨rfl, -⟩ | ⟨t, ht, rfl⟩ | ⟨x, hx, y, hy, rfl⟩
    · exact hb
    · rw [hg.yields_terminal_iff ht] at hw
      cases hw
    · rcases hempty x (List.mem_cons_self ..) with rfl | rfl
      · exact absurd (List.mem_cons_of_mem _ hx) hg.epsilon_not_variable
      · exact absurd rfl (hg.ne_start hx)

/-! ### The passes together -/

section Passes

variable (hg : g.WellFormed)
include hg

/-- The grammar before terminals are isolated. -/
theorem WellFormed.prepared :
    g.Equivalent ((g.trim.augmentStart "S0").eliminateEpsilon.eliminateUnits).trim ∧
      ∀ v, ∀ b ∈ ((g.trim.augmentStart "S0").eliminateEpsilon.eliminateUnits).trim.rules v,
        ((g.trim.augmentStart "S0").eliminateEpsilon.eliminateUnits).trim.Shaped
          (fun _ => True) v b := by
  have hbase : "S0" ≠ epsilonSymbol := by decide
  have h₁ := hg.equivalent_trim
  have h₂ := h₁.wellFormed.equivalent_augmentStart hbase
  have h₃ := h₂.wellFormed.equivalent_eliminateEpsilon
  have h₄ := h₃.wellFormed.equivalent_eliminateUnits
  have h₅ := h₄.wellFormed.equivalent_trim
  refine ⟨h₁.trans (h₂.trans (h₃.trans (h₄.trans h₅))), ?_⟩
  have hstart := h₂.wellFormed.startApart_eliminateEpsilon
    (h₁.wellFormed.startApart_augmentStart hbase)
  apply h₄.wellFormed.trim_shape
  exact fun v b hb => h₃.wellFormed.eliminateUnits_shape hstart
    (fun u => h₂.wellFormed.eq_start_of_epsilon_mem) hb

theorem WellFormed.normalized : g.Equivalent g.toChomsky ∧
    (∀ v, ∀ b ∈ g.toChomsky.rules v, g.toChomsky.IsChomskyRule v b) ∧
    ((∀ w, ¬ g.Derives w) → g.toChomsky.productions = ∅) := by
  obtain ⟨h₁, hshape⟩ := hg.prepared
  have h₂ := h₁.wellFormed.equivalent_isolateTerminals
  have h₃ := h₂.wellFormed.equivalent_binarize
  have h₄ := h₃.wellFormed.equivalent_trim
  have h₁₃ := h₁.trans (h₂.trans h₃)
  refine ⟨h₁₃.trans h₄, ?_, fun hnone => ?_⟩
  · apply h₃.wellFormed.trim_isChomskyRule
    exact h₂.wellFormed.binarize_shape (h₁.wellFormed.isolateTerminals_shape hshape)
  · have hempty := h₃.wellFormed.trim_eq_empty fun w hw => hnone w ((h₁₃.derives w).1 hw)
    exact congrArg productions hempty

end Passes

/-- The normal form is reached, by passes that come to their end, and it has the same language. The
start has a rule for the empty word just when this is a word of the language, and nothing is left
of the rules when there is no word. -/
theorem toChomsky_normal_form (hg : g.WellFormed) :
    (g.trim.augmentStart "S0").eliminateEpsilon.epsilonRule? = none ∧
    (g.trim.augmentStart "S0").eliminateEpsilon.eliminateUnits.unitRule? = none ∧
    g.toChomsky.isChomsky = true ∧
    (∀ v, ∀ r ∈ g.toChomsky.rules v, (∃ t ∈ g.toChomsky.terminals, r = [t]) ∨
      (∃ x y, r = [x, y] ∧ x ∈ g.toChomsky.vars ∧ y ∈ g.toChomsky.vars ∧
        x ≠ g.toChomsky.start ∧ y ≠ g.toChomsky.start) ∨
      r = Rule.epsilon ∧ v = g.toChomsky.start) ∧
    (∀ w, g.toChomsky.Derives w ↔ g.Derives w) ∧
    (Rule.epsilon ∈ g.toChomsky.rules g.toChomsky.start ↔ g.Derives []) ∧
    ((∀ w, ¬ g.Derives w) → g.toChomsky.productions = ∅) := by
  obtain ⟨heq, hshape, hempty⟩ := hg.normalized
  have hh := heq.wellFormed
  have haugment : (g.trim.augmentStart "S0").WellFormed :=
    hg.equivalent_trim.wellFormed.augmentStart (by decide)
  have hepsilon := haugment.equivalent_eliminateEpsilon.wellFormed
  refine ⟨haugment.epsilonRule?_eliminateEpsilon, hepsilon.unitRule?_eliminateUnits, ?_, ?_,
    heq.derives, ?_, hempty⟩
  · exact isChomsky_iff.2 fun v b hb => hh.isChomskyRule (hshape v b hb)
  · intro v r hr
    rcases hshape v r hr with hε | ht | ⟨x, hx, y, hy, rfl⟩
    · exact .inr (.inr hε)
    · exact .inl ht
    · exact .inr (.inl ⟨x, y, rfl, List.mem_cons_of_mem _ hx, List.mem_cons_of_mem _ hy,
        hh.ne_start hx, hh.ne_start hy⟩)
  · rw [epsilon_mem_rules_iff hh hshape, heq.derives]

/-- The rules of two variables that lead to each other are unfolded, and the language stays. -/
theorem toChomsky_nested : nested.WellFormed ∧ nested.toChomsky.isChomsky = true ∧
    Rule.epsilon ∈ nested.toChomsky.rules nested.toChomsky.start ∧
    nested.toChomsky.Derives ["a", "a", "b", "b"] := by
  obtain ⟨-, -, hchomsky, -, hderives, hε, -⟩ := toChomsky_normal_form nested_wellFormed
  exact ⟨nested_wellFormed, hchomsky, hε.2 (nested_derives 0), (hderives _).2 (nested_derives 2)⟩

end FormalLanguages.Grammar
