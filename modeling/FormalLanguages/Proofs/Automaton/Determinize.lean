import FormalLanguages.Automaton.Determinize
import FormalLanguages.Proofs.Automaton.Runs
import FormalLanguages.Proofs.Search
import Mathlib.Data.List.Sublists

/-!
# The subset construction keeps the language

After a word over the alphabet the deterministic automaton is in the state whose set holds all
states that the word leads to. No such set is missed, since there are no more of them than lists of
targets, and no move is missing.
-/

namespace FormalLanguages.Nfa

open Std Relation

variable {n : Nfa} {p q r t : State} {qs s : StateSet} {w : List Char} {c : Char} {a : Label}
  {i j : Nat}

/-! ### Closures -/

def allTargets (n : Nfa) : List State := n.moves.toList.flatMap fun e => e.2.toList

theorem length_allTargets (n : Nfa) : n.allTargets.length = n.targetCount := by
  have hfold : ∀ (l : List ((State × Label) × StateSet)) (k : Nat),
      l.foldl (fun count e => count + e.2.size) k =
        k + (l.flatMap fun e => e.2.toList).length := by
    intro l
    induction l with
    | nil => simp
    | cons e l ih => simp [ih, Nat.add_assoc]
  rw [targetCount, ExtTreeMap.foldl_eq_foldl_toList, hfold, Nat.zero_add, allTargets]

theorem exists_mem_moves (h : r ∈ n.targets q a) :
    ∃ rs, ((q, a), rs) ∈ n.moves.toList ∧ r ∈ rs := by
  rw [targets, ExtTreeMap.getD_eq_getD_getElem?] at h
  cases he : n.moves[(q, a)]? with
  | none =>
    rw [he, Option.getD_none] at h
    exact absurd h ExtTreeSet.not_mem_empty
  | some rs =>
    rw [he, Option.getD_some] at h
    exact ⟨rs, ExtTreeMap.mem_toList_iff_getElem?_eq_some.2 he, h⟩

theorem mem_allTargets (h : r ∈ n.targets q a) : r ∈ n.allTargets := by
  obtain ⟨rs, hmove, hr⟩ := exists_mem_moves h
  exact List.mem_flatMap.2 ⟨_, hmove, ExtTreeSet.mem_toList.2 hr⟩

theorem Path.mem_allTargets (h : n.Path q w r) : r = q ∨ r ∈ n.allTargets := by
  induction h using Path.induction_on_moves with
  | refl => exact .inl rfl
  | move q a t v ht _ ih => exact .inr (ih.elim (fun e => e ▸ Nfa.mem_allTargets ht) id)

theorem reflTransGen_silent_iff :
    ReflTransGen (fun q r => r ∈ n.targets q none) q r ↔ n.Path q [] r := by
  constructor
  · intro h
    induction h with
    | refl => exact .refl q
    | tail _ hstep ih => exact ih.trans (.single (a := none) hstep)
  · intro h
    generalize hw : [] = w at h
    induction h with
    | refl => exact .refl
    | silent ht _ ih => exact .head ht (ih hw)
    | read => cases hw

theorem silent_targets_mem : ∀ q ∈ qs.toList ++ n.allTargets, ∀ r ∈ (n.targets q none).toList,
    r ∈ qs.toList ++ n.allTargets := fun _ _ _ hr =>
  List.mem_append_right _ (mem_allTargets (ExtTreeSet.mem_toList.1 hr))

theorem length_append_allTargets :
    (qs.toList ++ n.allTargets).length = qs.size + n.targetCount := by
  rw [List.length_append, ExtTreeSet.length_toList, length_allTargets]

theorem mem_closure_iff : r ∈ n.closure qs ↔ ∃ q ∈ qs, n.Path q [] r := by
  rw [closure, Search.mem_reach_iff (fun q hq => List.mem_append_left _ hq) silent_targets_mem
    length_append_allTargets.le]
  simp only [ExtTreeSet.mem_toList]
  simp only [reflTransGen_silent_iff]

/-! ### The sets that words lead to -/

theorem mem_step_iff : r ∈ n.step s c ↔ ∃ q ∈ s, ∃ t ∈ n.targets q (some c), n.Path t [] r := by
  rw [step, mem_closure_iff]
  simp only [ExtTreeSet.mem_ofList, List.contains_iff_mem, List.mem_flatMap,
    ExtTreeSet.mem_toList]
  grind

def after (n : Nfa) (w : List Char) : StateSet := w.foldl n.step (n.closure {n.start})

theorem after_concat : n.after (w ++ [c]) = n.step (n.after w) c := by
  simp [after]

theorem mem_after_iff : r ∈ n.after w ↔ n.Path n.start w r := by
  induction w using List.reverseRecOn generalizing r with
  | nil =>
    show r ∈ n.closure {n.start} ↔ _
    simp [mem_closure_iff]
  | append_singleton w c ih =>
    rw [after_concat, mem_step_iff, path_append_iff]
    simp only [ih, path_singleton_iff]
    constructor
    · rintro ⟨q, hq, t, ht, hr⟩
      exact ⟨q, hq, q, .refl q, t, ht, hr⟩
    · rintro ⟨p, hp, q, hq, t, ht, hr⟩
      exact ⟨q, by simpa using hp.trans hq, t, ht, hr⟩

def setsOf (l : List State) : List StateSet := l.sublists.map fun l => .ofList l

theorem length_setsOf (l : List State) : (setsOf l).length = 2 ^ l.length := by
  rw [setsOf, List.length_map, List.length_sublists]

theorem mem_setsOf {l : List State} (h : ∀ r ∈ s, r ∈ l) : s ∈ setsOf l := by
  refine List.mem_map.2 ⟨l.filter (· ∈ s), List.mem_sublists.2 List.filter_sublist, ?_⟩
  apply ExtTreeSet.ext_mem
  intro r
  simpa using h r

theorem step_mem_setsOf : n.step s c ∈ setsOf n.allTargets := by
  apply mem_setsOf
  intro r hr
  obtain ⟨q, -, t, ht, hpath⟩ := mem_step_iff.1 hr
  exact hpath.mem_allTargets.elim (fun e => e ▸ mem_allTargets ht) id

/-- The first set and every set of targets: no set is found outside this list. -/
def targetSets (n : Nfa) : List StateSet := n.closure {n.start} :: setsOf n.allTargets

theorem length_targetSets_le : n.targetSets.length ≤ Nat.pow 2 (n.targetCount + 1) := by
  rw [targetSets, List.length_cons, length_setsOf, length_allTargets]
  have hpos := Nat.two_pow_pos n.targetCount
  show _ ≤ 2 ^ (n.targetCount + 1)
  omega

theorem steps_mem_targetSets : ∀ s ∈ n.targetSets, ∀ s' ∈ n.alphabet.toList.map (n.step s),
    s' ∈ n.targetSets := by
  intro s _ s' hs'
  obtain ⟨c, -, rfl⟩ := List.mem_map.1 hs'
  exact List.mem_cons_of_mem _ step_mem_setsOf

theorem mem_subsets_iff : s ∈ n.subsets ↔ ∃ w ∈ n.alphabet.words, s = n.after w := by
  rw [subsets, List.mem_reverse, Search.reach, Search.listed_spread.mem_order]
  rw [← Search.reach, Search.mem_reach_iff (l := n.targetSets) (by simp [targetSets])
    steps_mem_targetSets length_targetSets_le]
  simp only [List.mem_singleton, exists_eq_left]
  constructor
  · intro h
    induction h with
    | refl => exact ⟨[], Alphabet.nil_mem_words, rfl⟩
    | tail _ hstep ih =>
      obtain ⟨w, hw, rfl⟩ := ih
      obtain ⟨c, hc, rfl⟩ := List.mem_map.1 hstep
      exact ⟨w ++ [c], Alphabet.mem_words_concat.2 ⟨hw, ExtTreeSet.mem_toList.1 hc⟩,
        after_concat.symm⟩
  · rintro ⟨w, hw, rfl⟩
    induction w using List.reverseRecOn with
    | nil => exact .refl
    | append_singleton w c ih =>
      obtain ⟨hw, hc⟩ := Alphabet.mem_words_concat.1 hw
      rw [after_concat]
      exact (ih hw).tail (List.mem_map.2 ⟨c, ExtTreeSet.mem_toList.2 hc, rfl⟩)

theorem nodup_subsets : n.subsets.Nodup := List.nodup_reverse.2 Search.listed_spread.nodup

theorem getElem?_zero_subsets : n.subsets[0]? = some (n.after []) := by
  rw [← List.head?_eq_getElem?, subsets, List.head?_reverse]
  exact Search.getLast?_order_spread

/-! ### The deterministic automaton -/

theorem getElem?_ofList_zipIdx_subsets :
    (ExtTreeMap.ofList n.subsets.zipIdx : ExtTreeMap StateSet Nat)[s]? = some i ↔
      n.subsets[i]? = some s := by
  rw [getElem?_ofList_eq_some_iff, List.mem_zipIdx_iff_getElem?]
  intro s i j hi hj
  rw [List.mem_zipIdx_iff_getElem?] at hi hj
  obtain ⟨hlt, -⟩ := List.getElem?_eq_some_iff.1 hi
  exact (List.getElem?_inj hlt nodup_subsets).1 (hi.trans hj.symm)

def numberOf (n : Nfa) (s : StateSet) : Nat :=
  (ExtTreeMap.ofList n.subsets.zipIdx : ExtTreeMap StateSet Nat).getD s 0

theorem numberOf_eq (h : n.subsets[i]? = some s) : n.numberOf s = i := by
  rw [numberOf, ExtTreeMap.getD_eq_getD_getElem?, getElem?_ofList_zipIdx_subsets.2 h,
    Option.getD_some]

def numberedMoves (n : Nfa) : List ((State × Char) × State) :=
  n.subsets.zipIdx.flatMap fun e =>
    n.alphabet.toList.map fun c => ((e.2, c), n.numberOf (n.step e.1 c))

theorem mem_numberedMoves : ((i, c), j) ∈ n.numberedMoves ↔
    ∃ s, n.subsets[i]? = some s ∧ c ∈ n.alphabet ∧ n.numberOf (n.step s c) = j := by
  simp only [numberedMoves, List.mem_flatMap, List.mem_map, Prod.exists,
    List.mem_zipIdx_iff_getElem?, Prod.mk.injEq, ExtTreeSet.mem_toList]
  grind

theorem next?_determinize_eq_some : n.determinize.next? i c = some j ↔
    ∃ s, n.subsets[i]? = some s ∧ c ∈ n.alphabet ∧ n.numberOf (n.step s c) = j := by
  show (ExtTreeMap.ofList n.numberedMoves _)[(i, c)]? = some j ↔ _
  rw [getElem?_ofList_eq_some_iff, mem_numberedMoves]
  rintro ⟨i, c⟩ j k hj hk
  obtain ⟨s, hs, -, rfl⟩ := mem_numberedMoves.1 hj
  obtain ⟨s', hs', -, rfl⟩ := mem_numberedMoves.1 hk
  rw [Option.some.inj (hs.symm.trans hs')]

theorem step_mem_subsets (hs : s ∈ n.subsets) (hc : c ∈ n.alphabet) : n.step s c ∈ n.subsets := by
  obtain ⟨w, hw, rfl⟩ := mem_subsets_iff.1 hs
  exact mem_subsets_iff.2 ⟨w ++ [c], Alphabet.mem_words_concat.2 ⟨hw, hc⟩, after_concat.symm⟩

/-- The state after a word is the number of the set that the word leads to. -/
theorem run_determinize_eq_some : n.determinize.run 0 w = some i ↔
    w ∈ n.alphabet.words ∧ n.subsets[i]? = some (n.after w) := by
  induction w using List.reverseRecOn generalizing i with
  | nil =>
    have hzero := getElem?_zero_subsets (n := n)
    simp only [Dfa.run_nil, Option.some.injEq, Alphabet.nil_mem_words, true_and]
    constructor
    · rintro rfl
      exact hzero
    · intro hi
      rw [← numberOf_eq hzero, numberOf_eq hi]
  | append_singleton w c ih =>
    simp only [Dfa.run_concat_eq_some, ih, next?_determinize_eq_some, after_concat,
      Alphabet.mem_words_concat]
    constructor
    · rintro ⟨k, ⟨hw, hk⟩, s, hs, hc, rfl⟩
      obtain rfl := Option.some.inj (hk.symm.trans hs)
      obtain ⟨j, hj⟩ := List.mem_iff_getElem?.1 (step_mem_subsets (List.mem_of_getElem? hk) hc)
      exact ⟨⟨hw, hc⟩, numberOf_eq hj ▸ hj⟩
    · rintro ⟨⟨hw, hc⟩, hi⟩
      obtain ⟨k, hk⟩ := List.mem_iff_getElem?.1 (mem_subsets_iff.2 ⟨w, hw, rfl⟩)
      exact ⟨k, ⟨hw, hk⟩, n.after w, hk, hc, numberOf_eq hi⟩

theorem exists_run_determinize (hw : w ∈ n.alphabet.words) :
    ∃ i ∈ n.determinize.states, n.determinize.run n.determinize.start w = some i := by
  obtain ⟨i, hi⟩ := List.mem_iff_getElem?.1 (mem_subsets_iff.2 ⟨w, hw, rfl⟩)
  refine ⟨i, ?_, run_determinize_eq_some.2 ⟨hw, hi⟩⟩
  simpa [determinize] using (List.getElem?_eq_some_iff.1 hi).1

theorem mem_accept_determinize : i ∈ n.determinize.accept ↔
    ∃ s, n.subsets[i]? = some s ∧ ∃ q ∈ s, q ∈ n.accept := by
  simp only [determinize, ExtTreeSet.mem_ofList, List.contains_iff_mem, List.mem_map,
    List.mem_filter, Prod.exists, List.mem_zipIdx_iff_getElem?, List.any_eq_true,
    ExtTreeSet.mem_toList, decide_eq_true_eq]
  grind

theorem language_determinize : n.determinize.language = n.alphabet.words ⊓ n.language := by
  ext w
  rw [Dfa.mem_language]
  show _ ↔ w ∈ n.alphabet.words ∧ w ∈ n.language
  refine and_congr_right fun hw => ?_
  rw [mem_language]
  constructor
  · rintro ⟨i, hi, hrun⟩
    obtain ⟨s, hs, q, hq, haccept⟩ := mem_accept_determinize.1 hi
    obtain rfl := Option.some.inj (hs.symm.trans (run_determinize_eq_some.1 hrun).2)
    exact ⟨q, haccept, mem_after_iff.1 hq⟩
  · rintro ⟨q, haccept, hpath⟩
    obtain ⟨i, -, hrun⟩ := exists_run_determinize hw
    refine ⟨i, mem_accept_determinize.2 ⟨n.after w, ?_, q, mem_after_iff.2 hpath, haccept⟩, hrun⟩
    exact (run_determinize_eq_some.1 hrun).2

theorem language_complement_determinize :
    n.determinize.complement.language = n.alphabet.words - n.language := by
  rw [Dfa.language_complement fun w hw => exists_run_determinize hw, language_determinize]
  ext w
  show w ∈ n.alphabet.words ∧ ¬(w ∈ n.alphabet.words ∧ w ∈ n.language) ↔
    w ∈ n.alphabet.words ∧ w ∉ n.language
  grind

theorem wellFormed_determinize : n.determinize.WellFormed := by
  have hstates : ∀ i s, n.subsets[i]? = some s → i ∈ n.determinize.states := by
    intro i s hi
    simpa [determinize] using (List.getElem?_eq_some_iff.1 hi).1
  constructor
  case start_mem => exact hstates 0 _ getElem?_zero_subsets
  case accept_mem =>
    intro i hi
    obtain ⟨s, hs, -⟩ := mem_accept_determinize.1 hi
    exact hstates i s hs
  case source_mem =>
    intro i c j h
    obtain ⟨s, hs, -⟩ := next?_determinize_eq_some.1 h
    exact hstates i s hs
  case target_mem =>
    intro i c j h
    obtain ⟨s, hs, hc, rfl⟩ := next?_determinize_eq_some.1 h
    obtain ⟨k, hk⟩ := List.mem_iff_getElem?.1 (step_mem_subsets (List.mem_of_getElem? hs) hc)
    exact hstates _ _ (numberOf_eq hk ▸ hk)
  case letter_mem =>
    intro i c j h
    obtain ⟨-, -, hc, -⟩ := next?_determinize_eq_some.1 h
    exact hc

end FormalLanguages.Nfa
