import FormalLanguages.Grammar.Chomsky
import FormalLanguages.Proofs.Grammar.Trim

/-!
# Removing the rules for the empty word

At any time the rules are those of the first grammar with some occurrences of stripped variables
deleted, and the stripped variables derive the empty word. A stripped variable is never stripped
again, and so in the end only the start has a rule for the empty word.
-/

namespace FormalLanguages

open Std

namespace Rule

variable {p q : String → Prop} {b c r : Rule} {v : String}

/-- Occurrences of certain symbols may be deleted. -/
def Erasing (p : String → Prop) (s : String) (x : Rule) : Prop := x = [s] ∨ p s ∧ x = []

theorem expands_erasing_cons_iff {s : String} : Expands (Erasing p) (s :: r) c ↔
    (∃ y, c = s :: y ∧ r.Expands (Erasing p) y) ∨ p s ∧ r.Expands (Erasing p) c := by
  rw [expands_cons_iff]
  constructor
  · rintro ⟨x, y, rfl | ⟨hs, rfl⟩, hy, rfl⟩
    · exact .inl ⟨y, rfl, hy⟩
    · exact .inr ⟨hs, hy⟩
  · rintro (⟨y, rfl, hy⟩ | ⟨hs, hy⟩)
    · exact ⟨[s], y, .inl rfl, hy, rfl⟩
    · exact ⟨[], c, .inr ⟨hs, rfl⟩, hy, rfl⟩

theorem mem_erasures_iff : c ∈ Grammar.erasures v r ↔ r.Expands (Erasing (· = v)) c := by
  induction r generalizing c with
  | nil => simp [Grammar.erasures, expands_nil_iff]
  | cons s r ih =>
    rw [expands_erasing_cons_iff, Grammar.erasures]
    by_cases hs : s = v
    · simp only [hs, if_true, List.mem_append, List.mem_map, ih, true_and, or_comm, and_comm,
        eq_comm]
    · simp only [hs, if_false, List.mem_map, ih, false_and, or_false, and_comm, eq_comm]

theorem Expands.subset_of_erasing (h : r.Expands (Erasing p) c) : ∀ s ∈ c, s ∈ r := by
  intro s hs
  obtain ⟨a, ha, x, hx, hsx⟩ := h.mem hs
  rcases hx with rfl | ⟨-, rfl⟩
  · exact List.mem_singleton.1 hsx ▸ ha
  · cases hsx

/-- Symbols of two kinds may be deleted one kind after the other. -/
theorem expands_erasing_or_iff : r.Expands (Erasing fun s => p s ∨ q s) c ↔
    ∃ b, r.Expands (Erasing p) b ∧ b.Expands (Erasing q) c := by
  induction r generalizing c with
  | nil => simp [expands_nil_iff]
  | cons s r ih =>
    rw [expands_erasing_cons_iff]
    constructor
    · rintro (⟨y, rfl, hy⟩ | ⟨hs | hs, hy⟩)
      · obtain ⟨b, hb, hby⟩ := ih.1 hy
        exact ⟨s :: b, expands_erasing_cons_iff.2 (.inl ⟨b, rfl, hb⟩),
          expands_erasing_cons_iff.2 (.inl ⟨y, rfl, hby⟩)⟩
      · obtain ⟨b, hb, hbc⟩ := ih.1 hy
        exact ⟨b, expands_erasing_cons_iff.2 (.inr ⟨hs, hb⟩), hbc⟩
      · obtain ⟨b, hb, hbc⟩ := ih.1 hy
        exact ⟨s :: b, expands_erasing_cons_iff.2 (.inl ⟨b, rfl, hb⟩),
          expands_erasing_cons_iff.2 (.inr ⟨hs, hbc⟩)⟩
    · rintro ⟨b, hb, hbc⟩
      rcases expands_erasing_cons_iff.1 hb with ⟨a, rfl, ha⟩ | ⟨hs, hrb⟩
      · rcases expands_erasing_cons_iff.1 hbc with ⟨y, rfl, hay⟩ | ⟨hs, hac⟩
        · exact .inl ⟨y, rfl, ih.2 ⟨a, ha, hay⟩⟩
        · exact .inr ⟨.inr hs, ih.2 ⟨a, ha, hac⟩⟩
      · exact .inr ⟨.inl hs, ih.2 ⟨b, hrb, hbc⟩⟩

theorem expands_erasing_filter_iff (hq : ¬ q epsilonSymbol) :
    Expands (Erasing q) (r.filter (· ≠ epsilonSymbol)) b ↔
      ∃ c, r.Expands (Erasing q) c ∧ c.filter (· ≠ epsilonSymbol) = b := by
  induction r generalizing b with
  | nil => simp [expands_nil_iff, eq_comm]
  | cons s r ih =>
    by_cases hs : s = epsilonSymbol
    · rw [List.filter_cons_of_neg (by simpa using hs), ih]
      subst hs
      simp only [expands_erasing_cons_iff, hq, false_and, or_false]
      constructor
      · rintro ⟨c, hc, rfl⟩
        exact ⟨_, ⟨c, rfl, hc⟩, by simp⟩
      · rintro ⟨_, ⟨c, rfl, hc⟩, rfl⟩
        exact ⟨c, hc, by simp⟩
    · rw [List.filter_cons_of_pos (by simpa using hs), expands_erasing_cons_iff, ih]
      simp only [expands_erasing_cons_iff, ih]
      constructor
      · rintro (⟨_, rfl, c, hc, rfl⟩ | ⟨hqs, c, hc, rfl⟩)
        · exact ⟨s :: c, .inl ⟨c, rfl, hc⟩, by simp [hs]⟩
        · exact ⟨c, .inr ⟨hqs, hc⟩, rfl⟩
      · rintro ⟨_, ⟨c, rfl, hc⟩ | ⟨hqs, hc⟩, rfl⟩
        · exact .inl ⟨_, by simp [hs], c, hc, rfl⟩
        · exact .inr ⟨hqs, _, hc, rfl⟩

/-- The empty word is left out before symbols are deleted or after. -/
theorem exists_erasing_collapse_iff (hq : ¬ q epsilonSymbol) :
    (∃ c, r.collapse.Expands (Erasing q) c ∧ c.collapse = b) ↔
      ∃ c, r.Expands (Erasing q) c ∧ c.collapse = b := by
  have key : ∀ r : Rule, (∃ c, r.Expands (Erasing q) c ∧ c.collapse = b) ↔
      ∃ c, Expands (Erasing q) (r.filter (· ≠ epsilonSymbol)) c ∧ collapse c = b := by
    intro r
    simp only [expands_erasing_filter_iff hq]
    constructor
    · rintro ⟨c, hc, rfl⟩
      exact ⟨_, ⟨c, hc, rfl⟩, collapse_congr (by simp)⟩
    · rintro ⟨_, ⟨c, hc, rfl⟩, rfl⟩
      exact ⟨c, hc, collapse_congr (by simp)⟩
  rw [key r.collapse, key r, filter_collapse]

end Rule

namespace Grammar

open Rule

variable {g : Grammar} {b r : Rule} {s : Stripping} {base u v : String} {w : List String}

/-- What holds of the grammar and the stripped variables at any time. -/
structure Stripping.From (g : Grammar) (s : Stripping) : Prop where
  wellFormed : s.grammar.WellFormed
  terminals : s.grammar.terminals = g.terminals
  start : s.grammar.start = g.start
  others : s.grammar.others = g.others
  mem_rules : ∀ u b, b ∈ s.grammar.rules u ↔ ∃ r ∈ g.rules u,
    (∃ c, r.Expands (Erasing (· ∈ s.stripped)) c ∧ c.collapse = b) ∧
      (b = Rule.epsilon → u ∉ s.stripped)
  stripped : ∀ v ∈ s.stripped, v ∈ g.others ∧ g.Yields [v] []

namespace Stripping

theorem mem_rules_strip : b ∈ (s.strip v).grammar.rules u ↔ ∃ r ∈ s.grammar.rules u,
    (∃ c, r.Expands (Erasing (· = v)) c ∧ c.collapse = b) ∧
      (b = Rule.epsilon → u ∉ s.stripped.insert v) := by
  simp only [strip, mem_rules_mapRules, List.mem_filter, List.mem_map, mem_erasures_iff,
    Bool.or_eq_true, decide_eq_true_eq, ne_eq, Decidable.imp_iff_not_or]
  constructor
  · rintro ⟨r, hr, _, ⟨⟨c, hc, rfl⟩, hε⟩, rfl⟩
    rw [collapse_collapse]
    exact ⟨r, hr, ⟨c, hc, rfl⟩, hε⟩
  · rintro ⟨r, hr, ⟨c, hc, rfl⟩, hε⟩
    exact ⟨r, hr, _, ⟨⟨c, hc, rfl⟩, hε⟩, collapse_collapse c⟩

theorem yields_of_erasing {x : Rule} (h : ∀ v ∈ s.stripped, g.Yields [v] [])
    (hx : Erasing (· ∈ s.stripped) v x) (hw : g.Yields x w) : g.Yields [v] w := by
  rcases hx with rfl | ⟨hv, rfl⟩
  · exact hw
  · rw [yields_nil_iff.1 hw]
    exact h v hv

namespace From

theorem init (hg : g.WellFormed) : From g { grammar := g } := by
  refine ⟨hg, rfl, rfl, rfl, fun u b => ?_, fun v hv => absurd hv ExtTreeSet.not_mem_empty⟩
  have hself : ∀ r c : Rule, r.Expands (Erasing (· ∈ (∅ : ExtTreeSet String))) c ↔ c = r := by
    intro r c
    rw [← expands_self_iff]
    apply expands_congr
    simp [Erasing]
  constructor
  · exact fun hb => ⟨b, hb, ⟨b, (hself b b).2 rfl, hg.collapse_eq hb⟩, fun _ => by simp⟩
  · rintro ⟨r, hr, ⟨c, hc, rfl⟩, -⟩
    rw [(hself r c).1 hc, hg.collapse_eq hr]
    exact hr

variable (hg : g.WellFormed) (h : From g s)
include hg h

theorem yields_of_yields (hw : s.grammar.Yields r w) : g.Yields r w := by
  apply hw.imp
  · simp [h.terminals]
  · intro v b hb u _ hu
    obtain ⟨r, hr, ⟨c, hc, rfl⟩, -⟩ := (h.mem_rules v b).1 hb
    rw [hg.yields_collapse_iff] at hu
    apply Yields.of_rule hr
    exact hu.of_expands (fun _ _ _ => yields_of_erasing fun v hv => (h.stripped v hv).2) hc

theorem strip (hv : v ∈ g.others) (hε : Rule.epsilon ∈ s.grammar.rules v) :
    From g (s.strip v) := by
  have hvε : epsilonSymbol ≠ v := by
    rintro rfl
    exact hg.epsilon_not_variable (List.mem_cons_of_mem _ hv)
  have hmem : ∀ a, a ∈ s.stripped.insert v ↔ a ∈ s.stripped ∨ a = v := by
    intro a
    rw [mem_insert_iff, or_comm]
  have hor : ∀ r c : Rule, r.Expands (Erasing (· ∈ s.stripped.insert v)) c ↔
      ∃ b, r.Expands (Erasing (· ∈ s.stripped)) b ∧ b.Expands (Erasing (· = v)) c := by
    intro r c
    simp only [hmem, expands_erasing_or_iff]
  refine ⟨?_, h.terminals, h.start, h.others, fun u b => ?_, ?_⟩
  · apply h.wellFormed.mapRules
    intro u r hr c hc a ha
    obtain ⟨d, hd, rfl⟩ := List.mem_map.1 (List.mem_filter.1 hc).1
    rcases Rule.mem_collapse ha with ⟨had, -⟩ | hε
    · exact h.wellFormed.symbol_of_mem hr ((mem_erasures_iff.1 hd).subset_of_erasing a had)
    · rw [hε] at ha
      exact .inl (List.mem_singleton.1 ha)
  · rw [mem_rules_strip]
    constructor
    · rintro ⟨r, hr, hb, hε⟩
      obtain ⟨a, ha, ⟨c, hc, rfl⟩, -⟩ := (h.mem_rules u r).1 hr
      obtain ⟨d, hd, rfl⟩ := (exists_erasing_collapse_iff hvε).1 hb
      exact ⟨a, ha, ⟨d, (hor a d).2 ⟨c, hc, hd⟩, rfl⟩, hε⟩
    · rintro ⟨r, hr, ⟨d, hd, rfl⟩, hε⟩
      obtain ⟨c, hc, hcd⟩ := (hor r d).1 hd
      refine ⟨c.collapse, (h.mem_rules u _).2 ⟨r, hr, ⟨c, hc, rfl⟩, ?_⟩, ?_, hε⟩
      · -- what is left of the empty word is the empty word
        intro hcε hu
        have hdε : d.collapse = Rule.epsilon := collapse_eq_epsilon_iff.2 fun a ha =>
          collapse_eq_epsilon_iff.1 hcε a (hcd.subset_of_erasing a ha)
        exact hε hdε ((hmem u).2 (.inl hu))
      · exact (exists_erasing_collapse_iff hvε).2 ⟨d, hcd, rfl⟩
  · intro a ha
    rcases (hmem a).1 ha with ha | rfl
    · exact h.stripped a ha
    · exact ⟨hv, h.yields_of_yields hg (.of_rule hε (.epsilon .nil))⟩

omit hg in
theorem not_mem_stripped (hε : Rule.epsilon ∈ s.grammar.rules v) : v ∉ s.stripped := by
  obtain ⟨r, -, -, hv⟩ := (h.mem_rules v Rule.epsilon).1 hε
  exact hv rfl

omit hg in
/-- A derivation is kept when the stripped variables that derive the empty word in it are
deleted. -/
theorem exists_yields (hw : g.Yields r w) :
    ∃ c, r.Expands (Erasing (· ∈ s.stripped)) c ∧ s.grammar.Yields c w := by
  apply hw.exists_expands
  · exact ⟨_, .inl rfl, .epsilon .nil⟩
  · exact fun t ht => ⟨_, .inl rfl, .terminal (h.terminals ▸ ht) .nil⟩
  · rintro v b hb u - ⟨c, hc, hu⟩
    by_cases hv : v ∈ s.stripped ∧ u = []
    · exact ⟨[], .inr ⟨hv.1, rfl⟩, yields_nil_iff.2 hv.2⟩
    · refine ⟨[v], .inl rfl, ?_⟩
      rw [← h.wellFormed.yields_collapse_iff] at hu
      apply Yields.of_rule (b := c.collapse) ((h.mem_rules v _).2 ⟨b, hb, ⟨c, hc, rfl⟩, ?_⟩) hu
      intro hε hmem
      rw [hε, h.wellFormed.yields_epsilon_iff] at hu
      exact hv ⟨hmem, hu⟩

theorem yields_iff (hu : w ≠ [] ∨ u ∉ s.stripped) : s.grammar.Yields [u] w ↔ g.Yields [u] w := by
  refine ⟨h.yields_of_yields hg, fun hw => ?_⟩
  obtain ⟨c, hc, hcw⟩ := h.exists_yields hw
  rcases expands_singleton_iff.1 hc with rfl | ⟨hmem, rfl⟩
  · exact hcw
  · rcases hu with hne | hmem'
    · exact absurd (yields_nil_iff.1 hcw) hne
    · exact absurd hmem hmem'

theorem equivalent : g.Equivalent s.grammar := by
  apply Equivalent.mk h.wellFormed h.terminals
  intro w
  rw [Derives, Derives, h.start]
  exact h.yields_iff hg (.inr fun hs => hg.ne_start (h.stripped _ hs).1 rfl)

end From

end Stripping

theorem epsilonRule?_eq_some (h : g.epsilonRule? = some v) :
    v ∈ g.others ∧ Rule.epsilon ∈ g.rules v :=
  ⟨List.mem_of_find?_eq_some h, by simpa using List.find?_some h⟩

theorem epsilonRule?_eq_none_iff :
    g.epsilonRule? = none ↔ ∀ v ∈ g.others, Rule.epsilon ∉ g.rules v := by
  simp [epsilonRule?]

/-! ### The loop -/

namespace Stripping

variable {s' : Stripping}

def step? (s : Stripping) : Option Stripping := s.grammar.epsilonRule?.map s.strip

theorem From.step (hg : g.WellFormed) (h : From g s) (hstep : s.step? = some s') : From g s' := by
  obtain ⟨v, hv, rfl⟩ := Option.map_eq_some_iff.1 hstep
  obtain ⟨hv, hε⟩ := epsilonRule?_eq_some hv
  exact h.strip hg (h.others ▸ hv) hε

/-- No variable is stripped twice. -/
theorem From.size_stripped (h : From g s) (hstep : s.step? = some s') :
    s'.stripped.size = s.stripped.size + 1 := by
  obtain ⟨v, hv, rfl⟩ := Option.map_eq_some_iff.1 hstep
  exact size_insert_of_not_mem (h.not_mem_stripped (epsilonRule?_eq_some hv).2)

theorem From.size_stripped_le (h : From g s) : s.stripped.size ≤ g.others.length :=
  size_le_length fun v hv => (h.stripped v hv).1

end Stripping

/-- The loop keeps what it has to and ends when there is nothing left to strip. -/
theorem WellFormed.exists_stripping (hg : g.WellFormed) :
    ∃ s : Stripping, s.From g ∧ g.eliminateEpsilon = s.grammar ∧
      Exhausts Stripping.step? { grammar := g } s := by
  have preserved : ∀ s s' : Stripping, s.From g → s.step? = some s' → s'.From g :=
    fun s s' h hstep => h.step hg hstep
  refine ⟨_, exhaust_induction preserved g.others.length (.init hg), rfl, ?_⟩
  apply exhausts_exhaust (fun s => g.others.length - s.stripped.size) preserved _ (.init hg)
  · exact Nat.sub_le _ _
  · intro s s' h hstep
    have hsize := h.size_stripped hstep
    have hle := (preserved s s' h hstep).size_stripped_le
    omega

theorem WellFormed.epsilonRule?_eliminateEpsilon (hg : g.WellFormed) :
    g.eliminateEpsilon.epsilonRule? = none := by
  obtain ⟨s, -, heq, hend⟩ := hg.exists_stripping
  rw [heq]
  exact Option.map_eq_none_iff.1 hend.step?_eq_none

theorem WellFormed.equivalent_eliminateEpsilon (hg : g.WellFormed) :
    g.Equivalent g.eliminateEpsilon := by
  obtain ⟨s, h, heq, -⟩ := hg.exists_stripping
  exact heq ▸ h.equivalent hg

/-! ### What is left -/

theorem WellFormed.eq_start_of_epsilon_mem (hg : g.WellFormed)
    (hε : Rule.epsilon ∈ g.eliminateEpsilon.rules v) : v = g.eliminateEpsilon.start := by
  have hv := hg.equivalent_eliminateEpsilon.wellFormed.mem_vars_of_rule hε
  rcases mem_vars_iff.1 hv with hv | hv
  · exact hv
  · exact absurd hε (epsilonRule?_eq_none_iff.1 hg.epsilonRule?_eliminateEpsilon v hv)

def StartApart (g : Grammar) : Prop := ∀ v, ∀ b ∈ g.rules v, g.start ∉ b

theorem WellFormed.startApart_augmentStart (hg : g.WellFormed) (hbase : base ≠ epsilonSymbol) :
    (g.augmentStart base).StartApart := by
  intro v b hb hmem
  obtain ⟨hvar, hterm⟩ := unusedName_not_taken g base
  rw [start_augmentStart] at hmem
  rcases hg.mem_rules_augmentStart.1 hb with ⟨-, rfl⟩ | hb
  · exact hvar (List.mem_singleton.1 hmem ▸ start_mem_vars g)
  · rcases hg.symbol_of_mem hb hmem with h | h | h
    · exact unusedName_ne_epsilon hbase h
    · exact hterm h
    · exact hvar h

/-- A pass that deletes symbols does not bring the start into a rule. -/
theorem WellFormed.startApart_eliminateEpsilon (hg : g.WellFormed) (h : g.StartApart) :
    g.eliminateEpsilon.StartApart := by
  obtain ⟨s, hs, heq, -⟩ := hg.exists_stripping
  rw [heq]
  intro v b hb hmem
  rw [hs.start] at hmem
  obtain ⟨r, hr, ⟨c, hc, rfl⟩, -⟩ := (hs.mem_rules v b).1 hb
  rcases Rule.mem_collapse hmem with ⟨hmem, -⟩ | hε
  · exact h v r hr (hc.subset_of_erasing _ hmem)
  · rw [hε] at hmem
    exact hg.epsilon_not_variable (List.mem_singleton.1 hmem ▸ start_mem_vars g)

/-- When only the start has a rule for the empty word and occurs in no rule itself, nothing else
yields the empty word. -/
theorem StartApart.eq_start_of_yields_empty (h : g.StartApart) (hg : g.WellFormed)
    (hε : ∀ v, Rule.epsilon ∈ g.rules v → v = g.start) (hw : g.Yields r []) :
    ∀ a ∈ r, a = epsilonSymbol ∨ a = g.start := by
  apply hw.forall_mem (P := fun a => a = epsilonSymbol ∨ a = g.start)
  · exact .inl rfl
  · intro v b hb hsym
    rcases hg.isRule hb with rfl | ⟨hne, hrule⟩
    · exact .inr (hε v hb)
    · obtain ⟨a, ha⟩ := List.exists_mem_of_ne_nil b hne
      rcases hsym a ha with rfl | rfl
      · exact absurd (hrule _ ha) hg.epsilon_not_symbol
      · exact absurd ha (h v b hb)
  · exact fun t ht => absurd ht List.not_mem_nil

theorem WellFormed.not_yields_empty (hg : g.WellFormed) (h : g.StartApart) (hv : v ∈ g.others) :
    ¬ g.eliminateEpsilon.Yields [v] [] := by
  obtain ⟨s, hs, heq, -⟩ := hg.exists_stripping
  have hvar : v ∈ g.eliminateEpsilon.others := heq ▸ hs.others ▸ hv
  have hh := hg.equivalent_eliminateEpsilon.wellFormed
  intro hw
  have hempty := (hg.startApart_eliminateEpsilon h).eq_start_of_yields_empty hh
    (fun u => hg.eq_start_of_epsilon_mem) hw v (List.mem_singleton_self v)
  rcases hempty with rfl | heq
  · exact hh.epsilon_not_variable (List.mem_cons_of_mem _ hvar)
  · exact hh.ne_start hvar heq

/-- The loop ends, and only the start can have a rule for the empty word then. Nothing changes in
what the start yields, and for the other variables at most the empty word is missing. It is missing
indeed if the start occurs in no rule. -/
theorem eliminateEpsilon_exact (hg : g.WellFormed) :
    (∃ s, Exhausts Stripping.step? { grammar := g } s ∧ g.eliminateEpsilon = s.grammar) ∧
    g.eliminateEpsilon.WellFormed ∧
    g.eliminateEpsilon.terminals = g.terminals ∧
    g.eliminateEpsilon.start = g.start ∧ g.eliminateEpsilon.others = g.others ∧
    (∀ v ∈ g.others, Rule.epsilon ∉ g.eliminateEpsilon.rules v) ∧
    (∀ w, g.eliminateEpsilon.Yields [g.start] w ↔ g.Yields [g.start] w) ∧
    (∀ v ∈ g.others, ∀ w, w ≠ [] →
      (g.eliminateEpsilon.Yields [v] w ↔ g.Yields [v] w)) ∧
    ((∀ v, ∀ r ∈ g.rules v, g.start ∉ r) →
      ∀ v ∈ g.others, ¬ g.eliminateEpsilon.Yields [v] []) := by
  obtain ⟨s, hs, heq, hend⟩ := hg.exists_stripping
  have hequiv := hg.equivalent_eliminateEpsilon
  have hstart : g.eliminateEpsilon.start = g.start := heq ▸ hs.start
  have hothers : g.eliminateEpsilon.others = g.others := heq ▸ hs.others
  refine ⟨⟨s, hend, heq⟩, hequiv.wellFormed, hequiv.terminals, hstart, hothers, ?_, ?_, ?_, ?_⟩
  · intro v hv
    exact epsilonRule?_eq_none_iff.1 hg.epsilonRule?_eliminateEpsilon v (hothers ▸ hv)
  · have hderives := hequiv.derives
    unfold Derives at hderives
    rwa [hstart] at hderives
  · intro v _ w hw
    rw [heq]
    exact hs.yields_iff hg (.inl hw)
  · exact fun h v => hg.not_yields_empty h

/-- A new start leads to the old one, which has a rule for the empty word and passes it on to
another variable and back. -/
theorem eliminateEpsilon_nested : (nested.augmentStart "S0").WellFormed ∧
    "S" ∈ (nested.augmentStart "S0").others ∧
    (nested.augmentStart "S0").Yields ["S"] [] ∧
    (nested.augmentStart "S0").eliminateEpsilon.Yields ["S0"] [] ∧
    ¬ (nested.augmentStart "S0").eliminateEpsilon.Yields ["S"] [] ∧
    (nested.augmentStart "S0").eliminateEpsilon.Yields ["S"] ["a", "b"] := by
  have hbase : "S0" ≠ epsilonSymbol := by decide
  have hg := nested_wellFormed.augmentStart hbase
  have hname : nested.unusedName "S0" = "S0" := by decide +kernel
  have hS : "S" ∈ (nested.augmentStart "S0").others := by decide +kernel
  have hold : ∀ w, (nested.augmentStart "S0").Yields ["S"] w ↔ nested.Derives w :=
    fun w => nested_wellFormed.yields_augmentStart_iff hbase (by rw [hname]; decide)
  have hnew := (nested_wellFormed.equivalent_augmentStart hbase).derives []
  rw [Derives, start_augmentStart, hname] at hnew
  obtain ⟨-, -, -, -, -, -, hstart, hothers, hempty⟩ := eliminateEpsilon_exact hg
  rw [start_augmentStart, hname] at hstart
  refine ⟨hg, hS, (hold _).2 (nested_derives 0), (hstart _).2 (hnew.2 (nested_derives 0)),
    hempty ?_ "S" hS, (hothers "S" hS _ (by decide)).2 ((hold _).2 (nested_derives 1))⟩
  exact nested_wellFormed.startApart_augmentStart hbase

end Grammar

end FormalLanguages
