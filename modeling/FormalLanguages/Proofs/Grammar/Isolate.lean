import FormalLanguages.Grammar.Chomsky
import FormalLanguages.Proofs.Grammar.Trim

/-!
# Giving terminals variables of their own

A variable that stands for a terminal has this terminal as its only rule. So it makes no
difference to what is derived which of the two occurs in a rule.
-/

namespace FormalLanguages.Grammar

open Std

variable {g : Grammar} {b r : Rule} {s : Isolating} {a t u v : String} {w : List String}

/-- What holds at any time. The variables of the grammar keep their rules, and each new variable
stands for a terminal. -/
structure Isolating.From (g : Grammar) (s : Isolating) : Prop where
  wellFormed : s.grammar.WellFormed
  terminals : s.grammar.terminals = g.terminals
  start : s.grammar.start = g.start
  vars : ∀ v ∈ g.vars, v ∈ s.grammar.vars
  rules : ∀ v ∈ g.vars, ∀ b, b ∈ s.grammar.rules v ↔ b ∈ g.rules v
  new : ∀ v ∈ s.grammar.vars, v ∈ g.vars ∨ ∃ t : String, s.variableOf[t]? = some v
  variableOf : ∀ t v : String, s.variableOf[t]? = some v → t ∈ g.terminals ∧ v ∈ s.grammar.vars ∧
    v ≠ g.start ∧ ∀ b, b ∈ s.grammar.rules v ↔ b = [t]
  named : ∀ v ∈ s.grammar.vars, v ∈ g.vars ∨
    ∃ n taken, v = FormalLanguages.unusedName (numbered "U" n) taken
  reused : ∀ t v : String, s.variableOf[t]? = some v →
    g.terminalVariables[t]? = some v ∨ v ∉ g.vars ∧ v ∉ g.terminals

theorem mem_noteTerminal {m : ExtTreeMap String String} (hu : u ∈ g.others)
    (hm : ∀ t v : String, m[t]? = some v →
      v ∈ g.others ∧ g.soleRule? v = some [t] ∧ t ∈ g.terminals)
    (h : (g.noteTerminal m u)[t]? = some v) :
    v ∈ g.others ∧ g.soleRule? v = some [t] ∧ t ∈ g.terminals := by
  unfold noteTerminal at h
  split at h
  · next t' hsole =>
    split at h
    · next ht =>
      rw [ExtTreeMap.getElem?_insertIfNew] at h
      split at h
      · next heq =>
        cases h
        rw [← LawfulEqCmp.compare_eq_iff_eq.1 heq.1]
        exact ⟨hu, hsole, by simpa using ht⟩
      · exact hm t v h
    · exact hm t v h
  · exact hm t v h

theorem mem_terminalVariables (h : g.terminalVariables[t]? = some v) :
    v ∈ g.others ∧ g.soleRule? v = some [t] ∧ t ∈ g.terminals := by
  have hall : ∀ t v : String, g.terminalVariables[t]? = some v →
      v ∈ g.others ∧ g.soleRule? v = some [t] ∧ t ∈ g.terminals := by
    refine List.foldlRecOn (motive := fun m : ExtTreeMap String String => ∀ t v : String,
      m[t]? = some v → v ∈ g.others ∧ g.soleRule? v = some [t] ∧ t ∈ g.terminals)
      g.others g.noteTerminal ?_ fun m hm u hu t v => mem_noteTerminal hu hm
    simp
  exact hall t v h

namespace Isolating.From

theorem init (hg : g.WellFormed) :
    From g { grammar := g, variableOf := g.terminalVariables } := by
  refine ⟨hg, rfl, rfl, fun _ hv => hv, fun _ _ _ => .rfl, fun v hv => .inl hv, fun t v h => ?_,
    fun v hv => .inl hv, fun t v h => .inl h⟩
  obtain ⟨hv, hsole, ht⟩ := mem_terminalVariables h
  refine ⟨ht, List.mem_cons_of_mem _ hv, hg.ne_start hv, fun b => ?_⟩
  show b ∈ g.rules v ↔ b = [t]
  rw [← ExtTreeSet.mem_toList, soleRule?_eq_some_iff.1 hsole, List.mem_singleton]

/-- The variable for one more terminal. -/
theorem add (h : From g s) (ht : t ∈ g.terminals) (hnot : t ∉ s.variableOf)
    (hv : v ∉ s.grammar.vars) (hvt : v ∉ s.grammar.terminals) (hvε : v ≠ epsilonSymbol)
    (hname : ∃ n taken, v = FormalLanguages.unusedName (numbered "U" n) taken) (n : Nat) :
    From g ⟨s.grammar.addRule v [t], s.variableOf.insert t v, n⟩ := by
  have ht' : t ∈ s.grammar.terminals := h.terminals ▸ ht
  have hvariableOf : ∀ t' u, (s.variableOf.insert t v)[t']? = some u ↔
      t' = t ∧ u = v ∨ s.variableOf[t']? = some u :=
    fun t' u => getElem?_insert_eq_some_iff (ExtTreeMap.getElem?_eq_none hnot)
  have hcollapse : Rule.collapse [t] = [t] := Rule.collapse_eq_self (List.cons_ne_nil _ _)
    fun hε => h.wellFormed.epsilon_not_terminal (List.mem_singleton.1 hε ▸ ht')
  have hvars : ∀ u, u ∈ (s.grammar.addRule v [t]).vars ↔ u = v ∨ u ∈ s.grammar.vars := by
    intro u
    rw [mem_vars_addRule, hcollapse, List.mem_singleton]
    grind
  have hrules : ∀ u, u ∈ s.grammar.vars → ∀ b,
      b ∈ (s.grammar.addRule v [t]).rules u ↔ b ∈ s.grammar.rules u := by
    intro u hu b
    rw [rules_addRule_of_ne (ne_of_mem_of_not_mem hu hv)]
  constructor
  case wellFormed => exact h.wellFormed.addRule hvt hvε
  case terminals => exact (terminals_addRule _ _ _).trans h.terminals
  case start => exact (start_addRule _ _ _).trans h.start
  case vars => exact fun u hu => (hvars u).2 (.inr (h.vars u hu))
  case rules => exact fun u hu b => (hrules u (h.vars u hu) b).trans (h.rules u hu b)
  case new =>
    intro u hu
    rcases (hvars u).1 hu with rfl | hu
    · exact .inr ⟨t, (hvariableOf t u).2 (.inl ⟨rfl, rfl⟩)⟩
    · exact (h.new u hu).imp_right (Exists.imp fun t' ht' => (hvariableOf t' u).2 (.inr ht'))
  case variableOf =>
    intro t' u hu
    rcases (hvariableOf t' u).1 hu with ⟨rfl, rfl⟩ | hu
    · refine ⟨ht, (hvars u).2 (.inl rfl), fun e => hv ?_, fun b => ?_⟩
      · rw [e, ← h.start]
        exact start_mem_vars _
      · rw [mem_rules_addRule_self (h.wellFormed.rules_eq_empty hv), hcollapse]
    · obtain ⟨ht', hu, hne, hb⟩ := h.variableOf t' u hu
      exact ⟨ht', (hvars u).2 (.inr hu), hne, fun b => (hrules u hu b).trans (hb b)⟩
  case named =>
    intro u hu
    rcases (hvars u).1 hu with rfl | hu
    · exact .inr hname
    · exact h.named u hu
  case reused =>
    intro t' u hu
    rcases (hvariableOf t' u).1 hu with ⟨-, rfl⟩ | hu
    · exact .inr ⟨fun hu => hv (h.vars u hu), fun hu => hvt (h.terminals ▸ hu)⟩
    · exact h.reused t' u hu

variable (h : From g s)
include h

theorem isolate (t : String) : From g (s.isolate t) := by
  unfold Isolating.isolate
  split
  · next hnew =>
    simp only [Bool.and_eq_true, isTerminal_iff, decide_eq_true_eq] at hnew
    obtain ⟨hv, hvt⟩ := unusedName_not_taken s.grammar (numbered "U" (s.counter + 1))
    exact h.add (h.terminals ▸ hnew.1) hnew.2 hv hvt
      (unusedName_ne_epsilon (numbered_ne_epsilon "U" _)) ⟨_, _, rfl⟩ _
  · exact h

/-- A terminal that has had its turn has a variable. -/
theorem mem_variableOf_isolate (ht : t ∈ g.terminals) : t ∈ (s.isolate t).variableOf := by
  unfold Isolating.isolate
  split
  · simp
  · next hnew =>
    simp only [Bool.and_eq_true, isTerminal_iff, decide_eq_true_eq, not_and,
      Decidable.not_not] at hnew
    exact hnew (h.terminals ▸ ht)

omit h in
theorem mem_variableOf_of_mem (h : u ∈ s.variableOf) (t : String) :
    u ∈ (s.isolate t).variableOf := by
  unfold Isolating.isolate
  split
  · simp [h]
  · exact h

theorem foldl_isolate (ts : List String) : From g (ts.foldl Isolating.isolate s) ∧
    ∀ t, t ∈ s.variableOf ∨ t ∈ ts ∧ t ∈ g.terminals →
      t ∈ (ts.foldl Isolating.isolate s).variableOf := by
  induction ts generalizing s with
  | nil => exact ⟨h, fun t ht => ht.resolve_right fun ht => absurd ht.1 List.not_mem_nil⟩
  | cons a ts ih =>
    refine (ih (h.isolate a)).imp_right fun hmem t ht => hmem t ?_
    rcases ht with ht | ⟨ht, hterm⟩
    · exact .inl (mem_variableOf_of_mem ht a)
    · rcases List.mem_cons.1 ht with rfl | ht
      · exact .inl (h.mem_variableOf_isolate hterm)
      · exact .inr ⟨ht, hterm⟩

omit h in
theorem isolating (hg : g.WellFormed) : g.isolating.From g ∧
    ∀ t ∈ g.longRuleSymbols, t ∈ g.terminals → t ∈ g.isolating.variableOf := by
  obtain ⟨h, hmem⟩ := (init hg).foldl_isolate g.longRuleSymbols
  exact ⟨h, fun t ht hterm => hmem t (.inr ⟨ht, hterm⟩)⟩

/-! ### Replacing the terminals -/

omit h in
theorem name_eq (s : Isolating) (a : String) :
    s.name a = a ∧ a ∉ s.variableOf ∨ s.variableOf[a]? = some (s.name a) := by
  unfold Isolating.name
  rw [ExtTreeMap.getD_eq_getD_getElem?, ExtTreeMap.mem_iff_isSome_getElem?]
  cases s.variableOf[a]? <;> simp

theorem isSymbol_name (ha : s.grammar.IsSymbol a) : s.grammar.IsSymbol (s.name a) := by
  rcases name_eq s a with ⟨he, -⟩ | hv
  · rwa [he]
  · exact .inr (h.variableOf a _ hv).2.1

/-- A terminal and the variable that stands for it yield the same. -/
theorem yields_name_iff : s.grammar.Yields [s.name a] w ↔ s.grammar.Yields [a] w := by
  rcases name_eq s a with ⟨he, -⟩ | hv
  · rw [he]
  · obtain ⟨-, hvar, -, hrules⟩ := h.variableOf a _ hv
    rw [h.wellFormed.yields_variable_iff hvar]
    simp [hrules]

/-- In a longer rule of the grammar every symbol has the name of a variable. -/
theorem name_mem_vars (hg : g.WellFormed)
    (hterm : ∀ t ∈ g.longRuleSymbols, t ∈ g.terminals → t ∈ s.variableOf) (hr : r ∈ g.rules v)
    (hlen : 2 ≤ r.length) (ha : a ∈ r) : s.name a ∈ s.grammar.vars := by
  rcases name_eq s a with ⟨heq, hnot⟩ | hname
  · rw [heq]
    rcases hg.symbol_of_mem hr ha with rfl | ht | hvar
    · have hε : r = Rule.epsilon :=
        Decidable.byContradiction fun hε => hg.epsilon_not_mem hr hε ha
      simp [hε, Rule.epsilon] at hlen
    · exact absurd (hterm a (mem_longRuleSymbols.2 ⟨v, r, hr, by omega, ha⟩) ht) hnot
    · exact h.vars a hvar
  · exact (h.variableOf a _ hname).2.1

theorem collapse_map_name (hr : r ∈ s.grammar.rules v) (hlen : r.length ≠ 1) :
    Rule.collapse (r.map s.name) = r.map s.name := by
  have hne := h.wellFormed.ne_nil hr
  have hε : r ≠ Rule.epsilon := fun e => hlen (e ▸ rfl)
  apply Rule.collapse_eq_self
  · simpa using hne
  · intro hmem
    obtain ⟨a, ha, hname⟩ := List.mem_map.1 hmem
    have hsym := h.isSymbol_name (((h.wellFormed.isRule hr).resolve_left hε).2 a ha)
    exact h.wellFormed.epsilon_not_symbol (hname ▸ hsym)

theorem mem_rules_replaceTerminals : b ∈ s.replaceTerminals.rules v ↔
    ∃ r ∈ s.grammar.rules v, b = if r.length = 1 then r else r.map s.name := by
  unfold Isolating.replaceTerminals
  rw [mem_rules_mapRules]
  constructor
  · rintro ⟨r, hr, c, hc, rfl⟩
    refine ⟨r, hr, ?_⟩
    split at hc
    · next hlen => rw [List.mem_singleton.1 hc, if_pos hlen, h.wellFormed.collapse_eq hr]
    · next hlen => rw [List.mem_singleton.1 hc, if_neg hlen, h.collapse_map_name hr hlen]
  · rintro ⟨r, hr, rfl⟩
    split
    · next hlen => exact ⟨r, hr, r, by simp [hlen], h.wellFormed.collapse_eq hr⟩
    · next hlen => exact ⟨r, hr, _, by simp [hlen], h.collapse_map_name hr hlen⟩

theorem replaceTerminals : s.replaceTerminals.WellFormed := by
  apply h.wellFormed.mapRules
  intro v r hr c hc a ha
  split at hc
  · rw [List.mem_singleton.1 hc] at ha
    exact h.wellFormed.symbol_of_mem hr ha
  · next hlen =>
    have hε : r ≠ Rule.epsilon := fun e => hlen (e ▸ rfl)
    rw [List.mem_singleton.1 hc] at ha
    obtain ⟨x, hx, rfl⟩ := List.mem_map.1 ha
    exact .inr (h.isSymbol_name (((h.wellFormed.isRule hr).resolve_left hε).2 x hx))

theorem yields_replaceTerminals_iff : s.replaceTerminals.Yields r w ↔ s.grammar.Yields r w := by
  constructor
  · intro hw
    have hterm : ∀ t ∈ s.replaceTerminals.terminals, t ∈ s.grammar.terminals := fun t ht => ht
    apply hw.imp hterm
    intro v b hb w _ hbw
    obtain ⟨r, hr, rfl⟩ := h.mem_rules_replaceTerminals.1 hb
    apply Yields.of_rule hr
    split at hbw
    · exact hbw
    · exact hbw.of_map fun a _ u => h.yields_name_iff.1
  · intro hw
    have hterm : ∀ t ∈ s.grammar.terminals, t ∈ s.replaceTerminals.terminals := fun t ht => ht
    apply hw.imp hterm
    intro v b hb w _ hbw
    apply Yields.of_rule (h.mem_rules_replaceTerminals.2 ⟨b, hb, rfl⟩)
    split
    · exact hbw
    · apply hbw.map
      intro a _ u hu
      rcases name_eq s a with ⟨he, -⟩ | hv
      · rwa [he]
      · obtain ⟨-, -, -, hrules⟩ := h.variableOf a _ hv
        exact .of_rule (h.mem_rules_replaceTerminals.2 ⟨[a], (hrules [a]).2 rfl, rfl⟩) hu

/-- What is made of old symbols yields the same as before. -/
theorem yields_grammar_iff (hg : g.WellFormed) (hr : ∀ a ∈ r, a ∈ s.grammar.vars → a ∈ g.vars) :
    s.grammar.Yields r w ↔ g.Yields r w := by
  constructor
  · intro hw
    apply hw.imp_of_closed (P := fun a => a ∈ s.grammar.vars → a ∈ g.vars) _ _ hr
    · simp +contextual [h.terminals]
    · intro v hv b hb
      have hvar := hv (h.wellFormed.mem_vars_of_rule hb)
      have hb := (h.rules v hvar b).1 hb
      refine ⟨hb, fun a ha hvar' => ?_⟩
      rcases hg.symbol_of_mem hb ha with rfl | hterm | hvar
      · exact absurd hvar' h.wellFormed.epsilon_not_variable
      · exact absurd (h.terminals ▸ hterm) (h.wellFormed.disjoint a hvar')
      · exact hvar
  · intro hw
    apply hw.imp (by simp [h.terminals])
    intro v b hb w _ hbw
    exact .of_rule ((h.rules v (hg.mem_vars_of_rule hb) b).2 hb) hbw

end Isolating.From

theorem WellFormed.yields_isolateTerminals_iff (hg : g.WellFormed)
    (hr : ∀ a ∈ r, a ∈ g.isolateTerminals.vars → a ∈ g.vars) :
    g.isolateTerminals.Yields r w ↔ g.Yields r w := by
  obtain ⟨h, -⟩ := Isolating.From.isolating hg
  exact h.yields_replaceTerminals_iff.trans (h.yields_grammar_iff hg hr)

theorem WellFormed.equivalent_isolateTerminals (hg : g.WellFormed) :
    g.Equivalent g.isolateTerminals := by
  obtain ⟨h, -⟩ := Isolating.From.isolating hg
  refine ⟨h.replaceTerminals, h.terminals, fun w => ?_⟩
  have hstart : g.isolateTerminals.start = g.start := h.start
  rw [Derives, Derives, hstart, hg.yields_isolateTerminals_iff]
  intro a ha _
  exact List.mem_singleton.1 ha ▸ start_mem_vars g

end FormalLanguages.Grammar
