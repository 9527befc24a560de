import FormalLanguages.Grammar.Analysis
import FormalLanguages.Proofs.Grammar.Equivalent
import FormalLanguages.Proofs.Search

/-!
# What the analyses find

A least set is closed under its condition on rules, and a property of variables that is closed
under it holds for all of its members. From this the sets get their meaning: the generating
variables are those that yield something, the nullable ones those that yield the empty word.
-/

namespace FormalLanguages.Grammar

open Std Relation

variable {g : Grammar} {r : Rule} {u v : String} {w : List String}

section LeastSet

variable {passes : ExtTreeSet String → String → Rule → Bool}

theorem leastSet_induction {P : String → Prop}
    (step : ∀ s : ExtTreeSet String, (∀ u ∈ s, P u) → ∀ v, ∀ r ∈ g.rules v, passes s v r → P v) :
    ∀ v ∈ g.leastSet passes, P v := by
  refine saturate_induction (P := fun s : ExtTreeSet String => ∀ v ∈ s, P v) ?_ _ ?_
  · intro s hs v hv
    rcases mem_enlarge.1 hv with hv | ⟨r, hr, hp⟩
    · exact hs v hv
    · exact step s hs v r hr hp
  · exact fun v hv => absurd hv ExtTreeSet.not_mem_empty

/-- The set cannot grow beyond the variables that have productions. -/
theorem enlarge_leastSet (g : Grammar) (passes : ExtTreeSet String → String → Rule → Bool) :
    g.enlarge passes (g.leastSet passes) = g.leastSet passes := by
  apply step_saturate (P := fun s => ∀ v ∈ s, v ∈ g.productions) ExtTreeSet.size
    g.productions.size
  · intro s hs v hv
    rcases mem_enlarge.1 hv with hv | ⟨r, hr, -⟩
    · exact hs v hv
    · exact mem_productions_of_rule hr
  · exact fun s _ hne => size_lt_size (fun v hv => mem_enlarge.2 (.inl hv)) hne.symm
  · intro s hs
    rw [← ExtTreeMap.length_keys]
    exact size_le_length fun v hv => ExtTreeMap.mem_keys.2 (hs v hv)
  · exact fun v hv => absurd hv ExtTreeSet.not_mem_empty
  · exact Nat.le_add_left ..

theorem mem_leastSet_of_rule (hr : r ∈ g.rules v) (hp : passes (g.leastSet passes) v r) :
    v ∈ g.leastSet passes := by
  rw [← enlarge_leastSet]
  exact mem_enlarge.2 (.inr ⟨r, hr, hp⟩)

theorem WellFormed.mem_vars_of_leastSet (hg : g.WellFormed) (hv : v ∈ g.leastSet passes) :
    v ∈ g.vars := by
  apply leastSet_induction (P := (· ∈ g.vars)) _ v hv
  exact fun s _ v r hr _ => hg.mem_vars_of_rule hr

/-- A variable is added that has a rule that passes the test. -/
def Grows (g : Grammar) (passes : ExtTreeSet String → Rule → Prop)
    (s t : ExtTreeSet String) : Prop :=
  ∃ v ∉ s, (∃ r ∈ g.rules v, passes s r) ∧ t = s.insert v

section Growing

variable {s t : ExtTreeSet String} {tests : ExtTreeSet String → Rule → Prop}
  (mono : ∀ s t r, (∀ v ∈ s, v ∈ t) → tests s r → tests t r)
  (htests : ∀ s v r, passes s v r ↔ tests s r)
include mono htests

theorem Grows.mem_leastSet (hst : g.Grows tests s t) (hs : ∀ v ∈ s, v ∈ g.leastSet passes) :
    ∀ v ∈ t, v ∈ g.leastSet passes := by
  obtain ⟨u, -, ⟨r, hr, hp⟩, rfl⟩ := hst
  intro v hv
  rcases mem_insert_iff.1 hv with rfl | hv
  · exact mem_leastSet_of_rule hr ((htests _ _ _).2 (mono s _ r hs hp))
  · exact hs v hv

theorem eq_leastSet_of_not_grows (hs : ∀ v ∈ s, v ∈ g.leastSet passes)
    (hlast : ∀ t, ¬ g.Grows tests s t) : s = g.leastSet passes := by
  apply ExtTreeSet.ext_mem
  refine fun v => ⟨hs v, fun hv => ?_⟩
  refine leastSet_induction (P := (· ∈ s)) (fun s' hs' u r hr hp => ?_) v hv
  apply Decidable.byContradiction
  intro hu
  exact hlast _ ⟨u, hu, ⟨r, hr, mono s' s r hs' ((htests _ _ _).1 hp)⟩, rfl⟩

/-- Grown by one variable at a time, the least set is found whatever the order. -/
theorem endsWith_leastSet : EndsWith (g.Grows tests) (g.leastSet passes) ∅ := by
  apply endsWith_of_rank (P := fun s => ∀ v ∈ s, v ∈ g.leastSet passes)
    (fun s => (g.leastSet passes).size - s.size)
    (fun s t hs hst => hst.mem_leastSet mono htests hs)
  · intro s t hs hst
    have hle : t.size ≤ (g.leastSet passes).toList.length :=
      size_le_length fun v hv => ExtTreeSet.mem_toList.2 (hst.mem_leastSet mono htests hs v hv)
    obtain ⟨u, hu, -, rfl⟩ := hst
    rw [ExtTreeSet.length_toList] at hle
    rw [size_insert_of_not_mem hu] at hle ⊢
    omega
  · exact fun s hs hlast => eq_leastSet_of_not_grows mono htests hs hlast
  · exact fun v hv => absurd hv ExtTreeSet.not_mem_empty

end Growing

end LeastSet

/-! ### Generating variables -/

theorem endsWith_generating (g : Grammar) :
    EndsWith (g.Grows fun s r => ∀ a ∈ r, a = epsilonSymbol ∨ a ∈ g.terminals ∨ a ∈ s)
      g.generating ∅ := by
  apply endsWith_leastSet
  · exact fun s t r hst h a ha => (h a ha).imp_right (Or.imp_right (hst a))
  · simp [or_assoc]

theorem exists_yields_of_generating (hv : v ∈ g.generating) : ∃ w, g.Yields [v] w := by
  refine leastSet_induction (P := fun v => ∃ w, g.Yields [v] w) (fun s hs v r hr hp => ?_) v hv
  obtain ⟨w, hw⟩ : ∃ w, g.Yields r w := by
    apply exists_yields_iff.2
    intro a ha
    have hpa := List.all_eq_true.1 hp a ha
    simp only [isTerminal_iff, Bool.or_eq_true, beq_iff_eq, decide_eq_true_eq] at hpa
    rcases hpa with (rfl | ht) | has
    · exact ⟨[], .epsilon .nil⟩
    · exact ⟨[a], .terminal ht .nil⟩
    · exact hs a has
  exact ⟨w, .of_rule hr hw⟩

theorem mem_generating_of_rule (hr : r ∈ g.rules v)
    (h : ∀ a ∈ r, a = epsilonSymbol ∨ a ∈ g.terminals ∨ a ∈ g.generating) : v ∈ g.generating := by
  refine mem_leastSet_of_rule hr (List.all_eq_true.2 fun a ha => ?_)
  simp only [Bool.or_eq_true, beq_iff_eq, decide_eq_true_eq, or_assoc, isTerminal_iff]
  exact h a ha

theorem generating_of_yields (hw : g.Yields r w) :
    ∀ a ∈ r, a = epsilonSymbol ∨ a ∈ g.terminals ∨ a ∈ g.generating := by
  apply hw.forall_mem (P := fun a => a = epsilonSymbol ∨ a ∈ g.terminals ∨ a ∈ g.generating)
  · exact .inl rfl
  · exact fun v b hb h => .inr (.inr (mem_generating_of_rule hb h))
  · exact fun t _ ht => .inr (.inl ht)

theorem WellFormed.mem_generating_iff (hg : g.WellFormed) :
    v ∈ g.generating ↔ v ∈ g.vars ∧ ∃ w, g.Yields [v] w := by
  constructor
  · exact fun hv => ⟨hg.mem_vars_of_leastSet hv, exists_yields_of_generating hv⟩
  · rintro ⟨hv, w, hw⟩
    have hsym := generating_of_yields hw v (List.mem_singleton_self v)
    exact (or_assoc.2 hsym).resolve_left fun h => hg.ne_variable h hv rfl

/-! ### Nullable variables -/

theorem endsWith_nullable (g : Grammar) :
    EndsWith (g.Grows fun s r => ∀ a ∈ r, a = epsilonSymbol ∨ a ∈ s) g.nullable ∅ := by
  apply endsWith_leastSet
  · exact fun s t r hst h a ha => (h a ha).imp_right (hst a)
  · simp

theorem yields_empty_of_nullable (hv : v ∈ g.nullable) : g.Yields [v] [] := by
  refine leastSet_induction (P := fun v => g.Yields [v] []) (fun s hs v r hr hp => ?_) v hv
  refine .of_rule hr (yields_empty_iff.2 fun a ha => ?_)
  have hpa := List.all_eq_true.1 hp a ha
  simp only [Bool.or_eq_true, beq_iff_eq, decide_eq_true_eq] at hpa
  rcases hpa with rfl | has
  · exact .epsilon .nil
  · exact hs a has

theorem mem_nullable_of_rule (hr : r ∈ g.rules v)
    (h : ∀ a ∈ r, a = epsilonSymbol ∨ a ∈ g.nullable) : v ∈ g.nullable := by
  refine mem_leastSet_of_rule hr (List.all_eq_true.2 fun a ha => ?_)
  simp only [Bool.or_eq_true, beq_iff_eq, decide_eq_true_eq]
  exact h a ha

theorem nullable_of_yields_empty (hw : g.Yields r []) :
    ∀ a ∈ r, a = epsilonSymbol ∨ a ∈ g.nullable := by
  apply hw.forall_mem (P := fun a => a = epsilonSymbol ∨ a ∈ g.nullable)
  · exact .inl rfl
  · exact fun v b hb h => .inr (mem_nullable_of_rule hb h)
  · exact fun t ht => absurd ht List.not_mem_nil

theorem mem_nullable_iff (hv : v ≠ epsilonSymbol) : v ∈ g.nullable ↔ g.Yields [v] [] :=
  ⟨yields_empty_of_nullable, fun h =>
    (nullable_of_yields_empty h v (List.mem_singleton_self v)).resolve_left hv⟩

theorem mem_showing_of_rule {a : String} (hr : r ∈ g.rules v) (ha : a ∈ r)
    (h : a ∈ g.terminals ∨ a ∈ g.showing) : v ∈ g.showing := by
  refine mem_leastSet_of_rule hr (List.any_eq_true.2 ⟨a, ha, ?_⟩)
  simp only [Bool.or_eq_true, decide_eq_true_eq, isTerminal_iff]
  exact h

/-- What leads to no terminal yields nothing but the empty word. -/
theorem eq_nil_of_not_showing (hw : g.Yields r w)
    (hr : ∀ a ∈ r, a ∉ g.terminals ∧ a ∉ g.showing) : w = [] := by
  induction hw with
  | nil => rfl
  | epsilon _ ih => exact ih fun a ha => hr a (List.mem_cons_of_mem _ ha)
  | terminal ht _ _ => exact absurd ht (hr _ (List.mem_cons_self ..)).1
  | rule hb _ _ ihb ihr =>
    have hv := (hr _ (List.mem_cons_self ..)).2
    rw [ihr fun a ha => hr a (List.mem_cons_of_mem _ ha), ihb, List.append_nil]
    exact fun a ha => not_or.1 fun h => hv (mem_showing_of_rule hb ha h)

theorem yields_null_iff (hg : g.WellFormed) (hv : v ∈ g.nullVariables) :
    g.Yields [v] w ↔ w = [] := by
  obtain ⟨hnull, hshow⟩ := ExtTreeSet.mem_diff_iff.1 hv
  constructor
  · intro hw
    apply eq_nil_of_not_showing hw
    intro a ha
    obtain rfl := List.mem_singleton.1 ha
    refine ⟨fun ht => ?_, hshow⟩
    have h := (hg.yields_terminal_iff ht).1 (yields_empty_of_nullable hnull)
    cases h
  · rintro rfl
    exact yields_empty_of_nullable hnull

/-! ### Reachable variables -/

theorem mem_successors : u ∈ g.successors v ↔ ∃ r ∈ g.rules v, u ∈ r ∧ u ∈ g.vars := by
  simp [successors]

theorem mem_vars_of_mem_successors (hu : u ∈ g.successors v) : u ∈ g.vars := by
  obtain ⟨-, -, -, hvar⟩ := mem_successors.1 hu
  exact hvar

theorem mem_reachable_iff :
    v ∈ g.reachable ↔ ReflTransGen (fun u v => v ∈ g.successors u) g.start v := by
  unfold reachable
  rw [Search.mem_reach_iff (l := g.vars)]
  · simp
  · simp
  · exact fun _ _ _ hu => mem_vars_of_mem_successors hu
  · simp [vars]

/-- The search with a stack and no bound finds the variables that can be reached. -/
theorem exists_spreads_reachable (g : Grammar) :
    ∃ found, Search.Spreads .stack (fun _ => g.successors) [g.start] found ∧
      g.reachable = found.seen := by
  refine ⟨_, Search.spreads_spread (l := g.vars) ?_ ?_ ?_, rfl⟩
  · simp
  · exact fun _ _ _ _ _ hu => mem_vars_of_mem_successors hu
  · simp [vars]

theorem start_mem_reachable (g : Grammar) : g.start ∈ g.reachable := mem_reachable_iff.2 .refl

theorem mem_reachable_of_rule (hv : v ∈ g.reachable) (hr : r ∈ g.rules v) (hu : u ∈ r)
    (hvar : u ∈ g.vars) : u ∈ g.reachable :=
  mem_reachable_iff.2 ((mem_reachable_iff.1 hv).tail (mem_successors.2 ⟨r, hr, hu, hvar⟩))

end FormalLanguages.Grammar
