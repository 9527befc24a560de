import FormalLanguages.Proofs.Grammar.WellFormed

/-!
# Grammars for the same language

A pass over a well-formed grammar gives a well-formed grammar for the same language. Most passes
are of one of two kinds: some rules are left out, or each symbol is expanded in one of a few ways.
Many passes keep more than the language: the variables that are left stand for the same words.
-/

namespace FormalLanguages

open Std

namespace Grammar

variable {g : Grammar} {r : Rule} {u v : String} {w : List String}

/-- `h` is a well-formed grammar for the language of `g`. -/
structure Equivalent (g h : Grammar) : Prop where
  wellFormed : h.WellFormed
  terminals : h.terminals = g.terminals
  derives : ∀ w, h.Derives w ↔ g.Derives w

namespace Equivalent

variable {h k : Grammar}

theorem refl (hg : g.WellFormed) : g.Equivalent g := ⟨hg, rfl, fun _ => .rfl⟩

theorem trans (hgh : g.Equivalent h) (hhk : h.Equivalent k) : g.Equivalent k :=
  ⟨hhk.wellFormed, hhk.terminals.trans hgh.terminals,
    fun w => (hhk.derives w).trans (hgh.derives w)⟩

/-- Rules can be left out when their variables yield as much without them. -/
theorem of_subset (hh : h.WellFormed) (terminals : h.terminals = g.terminals)
    (start : h.start = g.start) (subset : ∀ v, ∀ b ∈ h.rules v, b ∈ g.rules v)
    (var : ∀ v, ∀ b ∈ g.rules v, ∀ u, g.Yields b u → h.Yields b u → h.Yields [v] u) :
    g.Equivalent h := by
  apply Equivalent.mk hh terminals
  intro w
  rw [Derives, Derives, start]
  constructor
  · apply Yields.imp
    · simp [terminals]
    · exact fun v b hb u _ hw => .of_rule (subset v b hb) hw
  · apply Yields.imp
    · simp [terminals]
    · exact var

end Equivalent

/-- The change may leave variables out, and those that are left stand for the same words. -/
structure Conservative (g h : Grammar) : Prop where
  wellFormed : h.WellFormed
  terminals : h.terminals = g.terminals
  mem_vars : ∀ v ∈ h.vars, v ∈ g.vars
  yields_iff : ∀ v ∈ h.vars, ∀ w, h.Yields [v] w ↔ g.Yields [v] w

namespace Conservative

variable {h k : Grammar}

theorem refl (hg : g.WellFormed) : g.Conservative g :=
  ⟨hg, rfl, fun _ hv => hv, fun _ _ _ => .rfl⟩

theorem trans (hgh : g.Conservative h) (hhk : h.Conservative k) : g.Conservative k where
  wellFormed := hhk.wellFormed
  terminals := hhk.terminals.trans hgh.terminals
  mem_vars v hv := hgh.mem_vars v (hhk.mem_vars v hv)
  yields_iff v hv w := (hhk.yields_iff v hv w).trans (hgh.yields_iff v (hhk.mem_vars v hv) w)

/-- With the start the language stays the same. -/
theorem equivalent (hgh : g.Conservative h) (start : h.start = g.start) : g.Equivalent h := by
  apply Equivalent.mk hgh.wellFormed hgh.terminals
  intro w
  rw [Derives, Derives, hgh.yields_iff _ (start_mem_vars h), start]

/-- A variable that is left out occurs in no rule. -/
theorem not_mem_of_rule (hgh : g.Conservative h) (hg : g.WellFormed) (hv : v ∈ g.vars)
    (hout : v ∉ h.vars) (hr : r ∈ h.rules u) : v ∉ r := by
  intro hvr
  rcases hgh.wellFormed.symbol_of_mem hr hvr with rfl | ht | hvar
  · exact hg.epsilon_not_variable hv
  · exact hg.disjoint v hv (hgh.terminals ▸ ht)
  · exact hout hvar

end Conservative

/-! ### Changes symbol by symbol -/

section Expands

variable {h : Grammar} {σ : String → Rule → Prop} {f : String → Rule → List Rule} {b : Rule}

/-- A change that expands each symbol: an expansion yields no more than its symbol, no new rule
yields more than its variable did, and the rules of a variable yield, once expanded, no less than
an expansion of the variable. -/
structure Expansion (σ : String → Rule → Prop) (g h : Grammar) : Prop where
  wellFormed : h.WellFormed
  terminals : h.terminals = g.terminals
  fixed : ∀ t, t = epsilonSymbol ∨ t ∈ g.terminals → σ t [t]
  symbol : ∀ s x u, σ s x → g.Yields x u → g.Yields [s] u
  sound : ∀ v, ∀ b ∈ h.rules v, ∀ u, g.Yields b u → g.Yields [v] u
  complete : ∀ v, ∀ r ∈ g.rules v, ∀ c u, g.Yields r u → r.Expands σ c → h.Yields c u →
    ∃ x, σ v x ∧ h.Yields x u

namespace Expansion

variable (hσ : Expansion σ g h)
include hσ

/-- A symbol whose one expansion is a symbol again yields what that symbol does. -/
theorem yields_iff {s t : String} (hst : ∀ x, σ s x ↔ x = [t]) :
    h.Yields [t] w ↔ g.Yields [s] w := by
  constructor
  · intro hw
    apply hσ.symbol s [t] w ((hst _).2 rfl)
    apply hw.imp
    · simp [hσ.terminals]
    · exact fun v b hb u _ hu => hσ.sound v b hb u hu
  · intro hw
    obtain ⟨c, hc, hcw⟩ : ∃ c, Rule.Expands σ [s] c ∧ h.Yields c w := by
      apply hw.exists_expands
      · exact ⟨_, hσ.fixed _ (.inl rfl), .epsilon .nil⟩
      · exact fun t ht => ⟨_, hσ.fixed t (.inr ht), .terminal (hσ.terminals ▸ ht) .nil⟩
      · rintro v b hb u hu ⟨c, hc, hcu⟩
        exact hσ.complete v b hb c u hu hc hcu
    rw [Rule.expands_singleton_iff, hst] at hc
    rwa [hc] at hcw

theorem equivalent (start : ∀ x, σ g.start x ↔ x = [h.start]) : g.Equivalent h :=
  ⟨hσ.wellFormed, hσ.terminals, fun _ => hσ.yields_iff start⟩

theorem conservative (kept : ∀ v ∈ h.vars, v ∈ g.vars ∧ ∀ x, σ v x ↔ x = [v]) :
    g.Conservative h :=
  ⟨hσ.wellFormed, hσ.terminals, fun v hv => (kept v hv).1,
    fun v hv _ => hσ.yields_iff (kept v hv).2⟩

end Expansion

namespace WellFormed

variable (hg : g.WellFormed) (hf : ∀ v r c, c ∈ f v r → r.Expands σ c)
include hg hf

theorem mapRules_of_expands
    (hσ : ∀ a x, a = epsilonSymbol ∨ g.IsSymbol a → σ a x →
      ∀ s ∈ x, s = epsilonSymbol ∨ g.IsSymbol s) : (g.mapRules f).WellFormed := by
  apply hg.mapRules
  intro v r hr c hc s hs
  obtain ⟨a, ha, x, hax, hsx⟩ := (hf v r c hc).mem hs
  exact hσ a x (hg.symbol_of_mem hr ha) hax s hsx

theorem yields_of_mapRules (symbol : ∀ s x u, σ s x → g.Yields x u → g.Yields [s] u)
    (hb : b ∈ (g.mapRules f).rules v) (hu : g.Yields b w) : g.Yields [v] w := by
  obtain ⟨r, hr, c, hc, rfl⟩ := mem_rules_mapRules.1 hb
  rw [hg.yields_collapse_iff] at hu
  exact .of_rule hr (hu.of_expands symbol (hf v r c hc))

end WellFormed

end Expands

/-! ### A new start -/

section AugmentStart

variable {base : String}

theorem unusedName_not_taken (g : Grammar) (base : String) :
    g.unusedName base ∉ g.vars ∧ g.unusedName base ∉ g.terminals := by
  have h : g.unusedName base ∉ g.taken := unusedName_not_mem
  simpa [taken, not_or] using h

@[simp] theorem terminals_augmentStart (g : Grammar) (base : String) :
    (g.augmentStart base).terminals = g.terminals := by
  simp [augmentStart, withStart]

@[simp] theorem start_augmentStart (g : Grammar) (base : String) :
    (g.augmentStart base).start = g.unusedName base := rfl

namespace WellFormed

variable (hg : g.WellFormed)
include hg

theorem collapse_start : Rule.collapse [g.start] = [g.start] :=
  Rule.collapse_eq_self (List.cons_ne_nil _ _)
    fun h => hg.epsilon_not_variable (List.mem_singleton.1 h ▸ start_mem_vars g)

theorem mem_rules_augmentStart {b : Rule} :
    b ∈ (g.augmentStart base).rules u ↔
      u = g.unusedName base ∧ b = [g.start] ∨ b ∈ g.rules u := by
  have h : b ∈ (g.augmentStart base).rules u ↔
    b ∈ (g.addRule (g.unusedName base) [g.start]).rules u := .rfl
  rw [h, mem_rules_addRule, hg.collapse_start]

theorem augmentStart (hbase : base ≠ epsilonSymbol) : (g.augmentStart base).WellFormed :=
  (hg.addRule (unusedName_not_taken g base).2 (unusedName_ne_epsilon hbase)).withStart
    (mem_vars_addRule.2 (.inl rfl))

/-- What does not mention the new start stands for the same as before. -/
theorem yields_augmentStart_iff (hbase : base ≠ epsilonSymbol) (hr : g.unusedName base ∉ r) :
    (g.augmentStart base).Yields r w ↔ g.Yields r w := by
  obtain ⟨hvar, hterm⟩ := unusedName_not_taken g base
  constructor
  · intro h
    refine h.imp_of_closed (P := (· ≠ g.unusedName base)) (by simp +contextual) ?_ fun s hs e =>
      hr (e ▸ hs)
    intro v hv b hb
    have hb := (hg.mem_rules_augmentStart.1 hb).resolve_left fun h => hv h.1
    refine ⟨hb, fun s hs e => ?_⟩
    rcases hg.symbol_of_mem hb hs with hs | hs | hs
    · exact unusedName_ne_epsilon hbase (e.symm.trans hs)
    · exact hterm (e ▸ hs)
    · exact hvar (e ▸ hs)
  · apply Yields.imp (by simp)
    intro v b hb u _ ih
    exact .of_rule (hg.mem_rules_augmentStart.2 (.inr hb)) ih

theorem equivalent_augmentStart (hbase : base ≠ epsilonSymbol) :
    g.Equivalent (g.augmentStart base) := by
  apply Equivalent.mk (hg.augmentStart hbase) (terminals_augmentStart g base)
  intro w
  obtain ⟨hvar, -⟩ := unusedName_not_taken g base
  rw [Derives, Derives, (hg.augmentStart hbase).yields_variable_iff (start_mem_vars _),
    ← hg.yields_augmentStart_iff hbase (r := [g.start])
      fun h => hvar (List.mem_singleton.1 h ▸ start_mem_vars g)]
  constructor
  · rintro ⟨b, hb, hw⟩
    rcases hg.mem_rules_augmentStart.1 hb with ⟨-, rfl⟩ | hb
    · exact hw
    · exact absurd (hg.mem_vars_of_rule hb) hvar
  · exact fun hw => ⟨_, hg.mem_rules_augmentStart.2 (.inl ⟨rfl, rfl⟩), hw⟩

end WellFormed

end AugmentStart

end Grammar

end FormalLanguages
