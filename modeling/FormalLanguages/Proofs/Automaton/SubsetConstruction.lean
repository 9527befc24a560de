import FormalLanguages.Proofs.Automaton.Determinize

/-!
# What the subset construction gives

Both loops of the construction come to an end: a closure is no larger than the states named by the
automaton, and the sets that are found are no more than the subsets of those. The deterministic
automaton has its sets numbered without gaps, each of them is where some word leads, and no move is
missing, so that exchanging the accept states and the others complements the language.
-/

namespace FormalLanguages.Nfa

open Std

variable {n : Nfa} {q r : State} {w : List Char} {c : Char} {i : Nat}

/-! ### The loops come to an end -/

/-- The loops of the construction end without a bound, with what the bounded ones find: the one
for closures, whatever it begins with, and the one that finds the sets. -/
structure Terminates (n : Nfa) : Prop where
  closure : ∀ qs, ∃ found,
    Search.Spreads .stack (fun _ q => (n.targets q none).toList) qs.toList found ∧
      found.seen = n.closure qs
  subsets : ∃ found, Search.Spreads .stack (fun _ s => n.alphabet.toList.map (n.step s))
    [n.closure {n.start}] found ∧ found.order.reverse = n.subsets

theorem terminates (n : Nfa) : n.Terminates where
  closure qs := by
    refine ⟨_, ?_, rfl⟩
    exact Search.spreads_spread (fun q hq => List.mem_append_left _ hq)
      (fun _ _ => silent_targets_mem) length_append_allTargets.le
  subsets := by
    refine ⟨_, ?_, rfl⟩
    exact Search.spreads_spread (l := n.targetSets) (by simp [targetSets])
      (fun _ _ => steps_mem_targetSets) length_targetSets_le

/-! ### The number of sets -/

/-- All states that are named anywhere, the declared ones and others. -/
def named (n : Nfa) : StateSet :=
  .ofList (n.start :: (n.states.toList ++ n.accept.toList ++
    n.moves.toList.flatMap fun e => e.1.1 :: e.2.toList))

theorem mem_named_iff : q ∈ n.named ↔ q = n.start ∨ q ∈ n.states ∨ q ∈ n.accept ∨
    (∃ a, (q, a) ∈ n.moves) ∨ ∃ p a, q ∈ n.targets p a := by
  have hmoves : (∃ e ∈ n.moves.toList, q ∈ e.1.1 :: e.2.toList) ↔
      (∃ a, (q, a) ∈ n.moves) ∨ ∃ p a, q ∈ n.targets p a := by
    constructor
    · rintro ⟨⟨⟨p, a⟩, rs⟩, he, hq⟩
      have hentry : n.moves[(p, a)]? = some rs := ExtTreeMap.mem_toList_iff_getElem?_eq_some.1 he
      rcases List.mem_cons.1 hq with rfl | hq
      · exact .inl ⟨a, ExtTreeMap.mem_iff_isSome_getElem?.2 (by rw [hentry]; rfl)⟩
      · refine .inr ⟨p, a, ?_⟩
        rw [targets, ExtTreeMap.getD_eq_getD_getElem?, hentry, Option.getD_some]
        exact ExtTreeSet.mem_toList.1 hq
    · rintro (⟨a, ha⟩ | ⟨p, a, hq⟩)
      · obtain ⟨rs, hrs⟩ := Option.isSome_iff_exists.1 (ExtTreeMap.mem_iff_isSome_getElem?.1 ha)
        exact ⟨_, ExtTreeMap.mem_toList_iff_getElem?_eq_some.2 hrs, List.mem_cons_self⟩
      · obtain ⟨rs, he, hq⟩ := exists_mem_moves hq
        exact ⟨_, he, List.mem_cons_of_mem _ (ExtTreeSet.mem_toList.2 hq)⟩
  simp only [named, ExtTreeSet.mem_ofList, List.contains_iff_mem, List.mem_cons, List.mem_append,
    List.mem_flatMap, ExtTreeSet.mem_toList] at hmoves ⊢
  rw [hmoves, or_assoc]

theorem Path.mem_named (h : n.Path q w r) (hq : q ∈ n.named) : r ∈ n.named := by
  induction h using Path.induction_on_moves with
  | refl => exact hq
  | move q a t v ht _ ih =>
    exact ih (mem_named_iff.2 (.inr (.inr (.inr (.inr ⟨q, a, ht⟩)))))

/-- The sets that are found hold named states only, and each is found once. -/
theorem length_subsets_le : n.subsets.length ≤ Nat.pow 2 n.named.size := by
  have hsub : ∀ s ∈ n.subsets, s ∈ setsOf n.named.toList := by
    intro s hs
    obtain ⟨w, -, rfl⟩ := mem_subsets_iff.1 hs
    exact mem_setsOf fun r hr => ExtTreeSet.mem_toList.2
      ((mem_after_iff.1 hr).mem_named (mem_named_iff.2 (.inl rfl)))
  calc n.subsets.length ≤ (setsOf n.named.toList).length := nodup_subsets.length_le_of_subset hsub
    _ = 2 ^ n.named.size := by rw [length_setsOf, ExtTreeSet.length_toList]

/-! ### The deterministic automaton -/

theorem mem_states_determinize : i ∈ n.determinize.states ↔ i < n.subsets.length := by
  simp [determinize]

/-- No state is there that no word leads to. -/
theorem exists_run_eq_some (hi : i < n.subsets.length) :
    ∃ w ∈ n.alphabet.words, n.determinize.run 0 w = some i := by
  obtain ⟨w, hw, hafter⟩ := mem_subsets_iff.1 (List.getElem_mem hi)
  exact ⟨w, hw, run_determinize_eq_some.2 ⟨hw, by rw [← hafter, List.getElem?_eq_getElem hi]⟩⟩

/-- No move is missing, and none is there for other states or characters. -/
theorem isSome_next?_determinize : (n.determinize.next? i c).isSome ↔
    i < n.subsets.length ∧ c ∈ n.alphabet := by
  simp only [Option.isSome_iff_exists, next?_determinize_eq_some]
  constructor
  · rintro ⟨-, s, hs, hc, -⟩
    exact ⟨(List.getElem?_eq_some_iff.1 hs).1, hc⟩
  · rintro ⟨hi, hc⟩
    exact ⟨_, _, List.getElem?_eq_getElem hi, hc, rfl⟩

theorem accepts_determinize : n.determinize.accepts w = true ↔
    (∀ c ∈ w, c ∈ n.alphabet) ∧ n.Accepts w := by
  show w ∈ n.determinize.language ↔ w ∈ n.alphabet.words ∧ w ∈ n.language
  rw [language_determinize]
  rfl

theorem accepts_complement_determinize : n.determinize.complement.accepts w = true ↔
    (∀ c ∈ w, c ∈ n.alphabet) ∧ n.determinize.accepts w = false := by
  rw [← Bool.not_eq_true, accepts_determinize]
  show w ∈ n.determinize.complement.language ↔ w ∈ n.alphabet.words ∧
    ¬(w ∈ n.alphabet.words ∧ w ∈ n.language)
  rw [language_complement_determinize]
  show w ∈ n.alphabet.words ∧ w ∉ n.language ↔ _
  exact and_congr_right fun hw => by rw [and_iff_right hw]

/-- The construction ends, whatever the automaton names, with a total deterministic automaton for
the words over the alphabet, whose complement has the others. -/
theorem determinize_total_exact (n : Nfa) :
    n.Terminates ∧
      ∃ k, 0 < k ∧ k ≤ Nat.pow 2 n.named.size ∧
        (∀ q, q ∈ n.determinize.states ↔ q < k) ∧
        n.determinize.start = 0 ∧ n.determinize.alphabet = n.alphabet ∧
        (∀ q < k, ∃ w, (∀ c ∈ w, c ∈ n.alphabet) ∧ n.determinize.run 0 w = some q) ∧
        (∀ q c, (n.determinize.next? q c).isSome ↔ q < k ∧ c ∈ n.alphabet) ∧
        (∀ q c r, n.determinize.next? q c = some r → r < k) ∧
        (∀ w, n.determinize.accepts w = true ↔ (∀ c ∈ w, c ∈ n.alphabet) ∧ n.Accepts w) ∧
        ∀ w, n.determinize.complement.accepts w = true ↔
          (∀ c ∈ w, c ∈ n.alphabet) ∧ n.determinize.accepts w = false := by
  have hpos : 0 < n.subsets.length := (List.getElem?_eq_some_iff.1 getElem?_zero_subsets).1
  refine ⟨terminates n, n.subsets.length, hpos, length_subsets_le, fun q => mem_states_determinize,
    rfl, rfl, fun q hq => exists_run_eq_some hq, fun q c => isSome_next?_determinize, ?_,
    fun w => accepts_determinize, fun w => accepts_complement_determinize⟩
  intro q c r hr
  exact mem_states_determinize.1 (wellFormed_determinize.target_mem q c r hr)

end FormalLanguages.Nfa
