import FormalLanguages.Automaton.Algebra
import FormalLanguages.Proofs.Automaton.Runs
import FormalLanguages.Proofs.Sets

/-!
# Languages of composed automata

What automata become when their states are renamed, when they are put side by side or one after the
other, when they are repeated and when they are turned round. The new states and the states of the
parts are assumed to be different here.
-/

namespace FormalLanguages

open Std Computability

theorem StateSet.mem_image {f : State → State} {s : StateSet} {r : State} :
    r ∈ s.image f ↔ ∃ q ∈ s, f q = r := by
  simp [image]

/-! ### Moves that are put together -/

namespace Moves

variable {m : Moves} {k l : State × Label} {ts sources : StateSet} {p r target : State} {a : Label}

theorem mem_getD_extend :
    r ∈ (m.extend k ts).getD l ∅ ↔ r ∈ m.getD l ∅ ∨ k = l ∧ r ∈ ts := by
  rw [getD_extend]
  split
  · next h => simp [h, ExtTreeSet.mem_union_iff]
  · next h => simp [h]

theorem mem_extend : l ∈ m.extend k ts ↔ l ∈ m ∨ k = l := by
  rw [extend, ExtTreeMap.mem_insert, LawfulEqCmp.compare_eq_iff_eq, or_comm]

theorem exists_entry_iff : (∃ e ∈ m.toList, e.1 = k ∧ r ∈ e.2) ↔ r ∈ m.getD k ∅ := by
  rw [ExtTreeMap.getD_eq_getD_getElem?]
  constructor
  · rintro ⟨⟨_, ts⟩, he, rfl, hr⟩
    rw [ExtTreeMap.mem_toList_iff_getElem?_eq_some.1 he]
    exact hr
  · intro hr
    cases he : m[k]? with
    | none =>
      rw [he] at hr
      exact absurd hr ExtTreeSet.not_mem_empty
    | some ts =>
      rw [he] at hr
      exact ⟨(k, ts), ExtTreeMap.mem_toList_iff_getElem?_eq_some.2 he, rfl, hr⟩

theorem mem_of_entry {e : (State × Label) × StateSet} (he : e ∈ m.toList) : e.1 ∈ m :=
  ExtTreeMap.mem_iff_isSome_getElem?.2 (by
    rw [ExtTreeMap.mem_toList_iff_getElem?_eq_some.1 he, Option.isSome_some])

section Folds

variable {α : Type} {key : α → State × Label} {added : α → StateSet} {l : List α}

theorem mem_getD_foldl_extend : r ∈ (l.foldl (fun m x => m.extend (key x) (added x)) m).getD k ∅ ↔
    r ∈ m.getD k ∅ ∨ ∃ x ∈ l, key x = k ∧ r ∈ added x :=
  foldl_iff (V := fun m : Moves => r ∈ m.getD k ∅) (P := fun x => key x = k ∧ r ∈ added x)
    (f := fun m x => m.extend (key x) (added x)) (fun _ _ => mem_getD_extend) l m

theorem mem_foldl_extend : k ∈ l.foldl (fun m x => m.extend (key x) (added x)) m ↔
    k ∈ m ∨ ∃ x ∈ l, key x = k :=
  foldl_iff (V := fun m : Moves => k ∈ m) (P := fun x => key x = k)
    (f := fun m x => m.extend (key x) (added x)) (fun _ _ => mem_extend) l m

end Folds

theorem mem_getD_link : r ∈ (m.link sources target).getD (p, a) ∅ ↔
    r ∈ m.getD (p, a) ∅ ∨ p ∈ sources ∧ a = none ∧ r = target := by
  rw [link, ExtTreeSet.foldl_eq_foldl_toList, mem_getD_foldl_extend]
  simp only [ExtTreeSet.mem_toList, Prod.mk.injEq, mem_singleton_iff]
  grind

theorem mem_link (h : k ∈ m.link sources target) : k ∈ m ∨ k.1 ∈ sources := by
  rw [link, ExtTreeSet.foldl_eq_foldl_toList, mem_foldl_extend] at h
  refine h.imp_right ?_
  rintro ⟨q, hq, rfl⟩
  exact ExtTreeSet.mem_toList.1 hq

end Moves

namespace Nfa

variable {m n : Nfa} {d : Dfa} {f : State → State} {p q r t : State} {u v w : List Char}
  {a : Label} {k : State × Label}

theorem mem_getD_joinMoves : r ∈ (m.joinMoves n).getD (q, a) ∅ ↔
    r ∈ m.targets q a ∨ r ∈ n.targets q a := by
  rw [joinMoves, ExtTreeMap.foldl_eq_foldl_toList, Moves.mem_getD_foldl_extend,
    Moves.exists_entry_iff, targets, targets]

theorem mem_joinMoves (h : k ∈ m.joinMoves n) : k ∈ m.moves ∨ k ∈ n.moves := by
  rw [joinMoves, ExtTreeMap.foldl_eq_foldl_toList, Moves.mem_foldl_extend] at h
  refine h.imp_right ?_
  rintro ⟨e, he, rfl⟩
  exact Moves.mem_of_entry he

theorem mem_getD_turnedMoves : r ∈ n.turnedMoves.getD (q, a) ∅ ↔ q ∈ n.targets r a := by
  rw [turnedMoves, ExtTreeMap.foldl_eq_foldl_toList,
    foldl_iff (V := fun moves : Moves => r ∈ moves.getD (q, a) ∅)
      (P := fun e => e.1 = (r, a) ∧ q ∈ e.2), Moves.exists_entry_iff]
  · simp [targets]
  · rintro moves ⟨⟨s, b⟩, ts⟩
    dsimp only
    rw [ExtTreeSet.foldl_eq_foldl_toList, Moves.mem_getD_foldl_extend]
    simp only [ExtTreeSet.mem_toList, mem_singleton_iff, Prod.ext_iff]
    grind

theorem mem_turnedMoves (h : (q, a) ∈ n.turnedMoves) : ∃ r, q ∈ n.targets r a := by
  rw [turnedMoves, ExtTreeMap.foldl_eq_foldl_toList,
    foldl_iff (V := fun moves : Moves => (q, a) ∈ moves)
      (P := fun e => e.1.2 = a ∧ q ∈ e.2)] at h
  · obtain ⟨⟨⟨r, _⟩, ts⟩, he, rfl, hq⟩ := h.resolve_left (by simp)
    exact ⟨r, Moves.exists_entry_iff.1 ⟨_, he, rfl, hq⟩⟩
  · rintro moves ⟨⟨s, b⟩, ts⟩
    dsimp only
    rw [ExtTreeSet.foldl_eq_foldl_toList, Moves.mem_foldl_extend]
    simp only [ExtTreeSet.mem_toList, Prod.mk.injEq]
    grind

theorem mem_targets_mapStates : t ∈ (n.mapStates f).targets p a ↔
    ∃ q r, r ∈ n.targets q a ∧ f q = p ∧ f r = t := by
  rw [targets, mapStates, ExtTreeMap.foldl_eq_foldl_toList, Moves.mem_getD_foldl_extend]
  simp only [ExtTreeMap.getD_empty, ExtTreeSet.not_mem_empty, false_or]
  constructor
  · rintro ⟨⟨⟨q, _⟩, ts⟩, he, hkey, ht⟩
    obtain ⟨rfl, rfl⟩ := Prod.mk.inj hkey
    obtain ⟨r, hr, rfl⟩ := StateSet.mem_image.1 ht
    exact ⟨q, r, Moves.exists_entry_iff.1 ⟨_, he, rfl, hr⟩, rfl, rfl⟩
  · rintro ⟨q, r, hr, rfl, rfl⟩
    obtain ⟨⟨_, ts⟩, he, rfl, hr⟩ := Moves.exists_entry_iff.2 hr
    exact ⟨((q, a), ts), he, rfl, StateSet.mem_image.2 ⟨r, hr, rfl⟩⟩

theorem mem_moves_mapStates (h : (p, a) ∈ (n.mapStates f).moves) :
    ∃ q, (q, a) ∈ n.moves ∧ f q = p := by
  rw [mapStates, ExtTreeMap.foldl_eq_foldl_toList, Moves.mem_foldl_extend] at h
  obtain ⟨⟨⟨q, _⟩, ts⟩, he, hkey⟩ := h.resolve_left (by simp)
  obtain ⟨rfl, rfl⟩ := Prod.mk.inj hkey
  exact ⟨q, Moves.mem_of_entry he, rfl⟩

theorem mem_targets_toNfa : r ∈ d.toNfa.targets q a ↔ ∃ c, a = some c ∧ d.next? q c = some r := by
  rw [targets, Dfa.toNfa, ExtTreeMap.foldl_eq_foldl_toList, Moves.mem_getD_foldl_extend]
  simp only [ExtTreeMap.getD_empty, ExtTreeSet.not_mem_empty, false_or, mem_singleton_iff]
  constructor
  · rintro ⟨⟨⟨_, c⟩, _⟩, he, hkey, rfl⟩
    obtain ⟨rfl, rfl⟩ := Prod.mk.inj hkey
    exact ⟨c, rfl, ExtTreeMap.mem_toList_iff_getElem?_eq_some.1 he⟩
  · rintro ⟨c, rfl, hnext⟩
    exact ⟨((q, c), r), ExtTreeMap.mem_toList_iff_getElem?_eq_some.2 hnext, rfl, rfl⟩

theorem mem_moves_toNfa (h : (q, a) ∈ d.toNfa.moves) : ∃ c r, d.next? q c = some r := by
  rw [Dfa.toNfa, ExtTreeMap.foldl_eq_foldl_toList, Moves.mem_foldl_extend] at h
  obtain ⟨⟨⟨_, c⟩, r⟩, he, hkey⟩ := h.resolve_left (by simp)
  obtain ⟨rfl, -⟩ := Prod.mk.inj hkey
  exact ⟨c, r, ExtTreeMap.mem_toList_iff_getElem?_eq_some.1 he⟩

/-! ### A single move -/

theorem mem_targets_arrow {A : Alphabet} {b : Label} : t ∈ (arrow A a q r).targets p b ↔
    (q = p ∧ a = b) ∧ t = r := by
  rw [targets, arrow, Moves.mem_getD_extend, mem_singleton_iff, Prod.mk.injEq]
  simp

theorem mem_states_arrow {A : Alphabet} : p ∈ (arrow A a q r).states ↔ p = q ∨ p = r := by
  simp [arrow, @eq_comm _ p]

theorem wellFormed_arrow (A : Alphabet) (a : Label) (q r : State) : (arrow A a q r).WellFormed where
  start_mem := mem_states_arrow.2 (.inl rfl)
  accept_mem _ hp := mem_states_arrow.2 (.inr (mem_singleton_iff.1 hp))
  source_mem _ _ hp := by
    obtain ⟨rfl, -⟩ := Prod.mk.inj ((Moves.mem_extend.1 hp).resolve_left (by simp))
    exact mem_states_arrow.2 (.inl rfl)
  target_mem _ _ _ ht := mem_states_arrow.2 (.inr (mem_targets_arrow.1 ht).2)

theorem language_arrow (A : Alphabet) (hqr : q ≠ r) : (arrow A a q r).language = {a.toList} := by
  ext w
  constructor
  · rintro ⟨t, ht, hpath⟩
    obtain rfl := mem_singleton_iff.1 ht
    rcases hpath.eq_or_exists_move with ⟨-, heq⟩ | ⟨b, p, v, hp, hrest, rfl⟩
    · exact absurd heq hqr
    · obtain ⟨⟨-, rfl⟩, rfl⟩ := mem_targets_arrow.1 hp
      rcases hrest.eq_or_exists_move with ⟨rfl, -⟩ | ⟨b, t, u, ht, -⟩
      · exact List.append_nil _
      · exact absurd (mem_targets_arrow.1 ht).1.1 hqr
  · rintro rfl
    exact ⟨r, mem_singleton_iff.2 rfl, .single (mem_targets_arrow.2 ⟨⟨rfl, rfl⟩, rfl⟩)⟩

/-! ### Two automata side by side -/

def Disjoint (m n : Nfa) : Prop := ∀ q ∈ m.states, q ∉ n.states

theorem mem_targets_choice : r ∈ (m.choice n q).targets p a ↔
    (r ∈ m.targets p a ∨ r ∈ n.targets p a) ∨
      p = q ∧ a = none ∧ (r = m.start ∨ r = n.start) := by
  rw [targets, choice, Moves.mem_getD_extend, mem_getD_joinMoves]
  simp
  grind

theorem WellFormed.choice (hm : m.WellFormed) (hn : n.WellFormed) (q : State) :
    (m.choice n q).WellFormed where
  start_mem := ExtTreeSet.mem_insert_self
  accept_mem p hp := mem_insert_iff.2 <| .inr <| ExtTreeSet.mem_union_iff.2 <|
    (ExtTreeSet.mem_union_iff.1 hp).imp (hm.accept_mem p) (hn.accept_mem p)
  source_mem p a hp := by
    rcases Moves.mem_extend.1 hp with hp | hp
    · exact mem_insert_iff.2 <| .inr <| ExtTreeSet.mem_union_iff.2 <|
        (mem_joinMoves hp).imp (hm.source_mem p a) (hn.source_mem p a)
    · obtain ⟨rfl, -⟩ := Prod.mk.inj hp
      exact ExtTreeSet.mem_insert_self
  target_mem p a r hr := by
    refine mem_insert_iff.2 <| .inr <| ExtTreeSet.mem_union_iff.2 ?_
    rcases mem_targets_choice.1 hr with (hr | hr) | ⟨-, -, rfl | rfl⟩
    · exact .inl (hm.target_mem p a r hr)
    · exact .inr (hn.target_mem p a r hr)
    · exact .inl hm.start_mem
    · exact .inr hn.start_mem

theorem Path.of_choice_left (hm : m.WellFormed) (hn : n.WellFormed) (hmn : m.Disjoint n)
    (hq : q ∉ m.states) (h : (m.choice n q).Path p w r) (hp : p ∈ m.states) :
    m.Path p w r ∧ r ∈ m.states := by
  refine h.restrict (S := (· ∈ m.states)) (fun p hp a r hr => ?_) hp
  rcases mem_targets_choice.1 hr with (hr | hr) | ⟨rfl, -⟩
  · exact ⟨hr, hm.target_mem p a r hr⟩
  · exact absurd (hn.mem_of_target hr) (hmn p hp)
  · exact absurd hp hq

theorem Path.of_choice_right (hm : m.WellFormed) (hn : n.WellFormed) (hmn : m.Disjoint n)
    (hq : q ∉ n.states) (h : (m.choice n q).Path p w r) (hp : p ∈ n.states) :
    n.Path p w r ∧ r ∈ n.states := by
  refine h.restrict (S := (· ∈ n.states)) (fun p hp a r hr => ?_) hp
  rcases mem_targets_choice.1 hr with (hr | hr) | ⟨rfl, -⟩
  · exact absurd hp (hmn p (hm.mem_of_target hr))
  · exact ⟨hr, hn.target_mem p a r hr⟩
  · exact absurd hp hq

theorem language_choice (hm : m.WellFormed) (hn : n.WellFormed) (hmn : m.Disjoint n)
    (hqm : q ∉ m.states) (hqn : q ∉ n.states) :
    (m.choice n q).language = m.language + n.language := by
  ext w
  rw [Language.mem_add]
  constructor
  · rintro ⟨t, ht, hpath⟩
    rcases hpath.eq_or_exists_move with ⟨-, rfl⟩ | ⟨a, p, v, hp, hpath, rfl⟩
    · rcases ExtTreeSet.mem_union_iff.1 ht with ht | ht
      · exact absurd (hm.accept_mem _ ht) hqm
      · exact absurd (hn.accept_mem _ ht) hqn
    · rcases mem_targets_choice.1 hp with (hp | hp) | ⟨-, rfl, rfl | rfl⟩
      · exact absurd (hm.mem_of_target hp) hqm
      · exact absurd (hn.mem_of_target hp) hqn
      · obtain ⟨hpath, htm⟩ := hpath.of_choice_left hm hn hmn hqm hm.start_mem
        have hnot : t ∉ n.accept := fun ht => hmn t htm (hn.accept_mem t ht)
        exact .inl ⟨t, (ExtTreeSet.mem_union_iff.1 ht).resolve_right hnot, hpath⟩
      · obtain ⟨hpath, htn⟩ := hpath.of_choice_right hm hn hmn hqn hn.start_mem
        have hnot : t ∉ m.accept := fun ht => hmn t (hm.accept_mem t ht) htn
        exact .inr ⟨t, (ExtTreeSet.mem_union_iff.1 ht).resolve_left hnot, hpath⟩
  · rintro (⟨t, ht, hpath⟩ | ⟨t, ht, hpath⟩)
    · refine ⟨t, ExtTreeSet.mem_union_iff.2 (.inl ht), .silent (r := m.start) ?_ ?_⟩
      · exact mem_targets_choice.2 (.inr ⟨rfl, rfl, .inl rfl⟩)
      · exact hpath.mono fun _ _ _ hr => mem_targets_choice.2 (.inl (.inl hr))
    · refine ⟨t, ExtTreeSet.mem_union_iff.2 (.inr ht), .silent (r := n.start) ?_ ?_⟩
      · exact mem_targets_choice.2 (.inr ⟨rfl, rfl, .inr rfl⟩)
      · exact hpath.mono fun _ _ _ hr => mem_targets_choice.2 (.inl (.inr hr))

/-! ### One automaton after another -/

theorem mem_targets_chain : r ∈ (m.chain n).targets p a ↔
    (r ∈ m.targets p a ∨ r ∈ n.targets p a) ∨ p ∈ m.accept ∧ a = none ∧ r = n.start := by
  rw [targets, chain, Moves.mem_getD_link, mem_getD_joinMoves]

theorem WellFormed.chain (hm : m.WellFormed) (hn : n.WellFormed) : (m.chain n).WellFormed where
  start_mem := ExtTreeSet.mem_union_iff.2 (.inl hm.start_mem)
  accept_mem p hp := ExtTreeSet.mem_union_iff.2 (.inr (hn.accept_mem p hp))
  source_mem p a hp := by
    refine ExtTreeSet.mem_union_iff.2 ?_
    rcases Moves.mem_link hp with hp | hp
    · exact (mem_joinMoves hp).imp (hm.source_mem p a) (hn.source_mem p a)
    · exact .inl (hm.accept_mem p hp)
  target_mem p a r hr := by
    refine ExtTreeSet.mem_union_iff.2 ?_
    rcases mem_targets_chain.1 hr with (hr | hr) | ⟨-, -, rfl⟩
    · exact .inl (hm.target_mem p a r hr)
    · exact .inr (hn.target_mem p a r hr)
    · exact .inr hn.start_mem

theorem language_chain (hm : m.WellFormed) (hn : n.WellFormed) (hmn : m.Disjoint n) :
    (m.chain n).language = m.language * n.language := by
  ext w
  rw [Language.mem_mul]
  constructor
  · rintro ⟨t, ht, hpath⟩
    -- A path that stays in the first automaton does not come to an accept state of the second.
    have hescape := hpath.escape (n := m) (S := (· ∈ m.states))
      (X := fun p r => p ∈ m.accept ∧ r = n.start) (fun p hp a r hr => by
        rcases mem_targets_chain.1 hr with (hr | hr) | ⟨haccept, ha, hr⟩
        · exact .inl ⟨hr, hm.target_mem p a r hr⟩
        · exact absurd (hn.mem_of_target hr) (hmn p hp)
        · exact .inr ⟨ha, haccept, hr⟩) hm.start_mem
    rcases hescape with ⟨-, htm⟩ | ⟨u, v, s, _, rfl, hu, ⟨hs, rfl⟩, hv⟩
    · exact absurd (hn.accept_mem t ht) (hmn t htm)
    · refine ⟨u, ⟨s, hs, hu⟩, v, ⟨t, ht, ?_⟩, rfl⟩
      refine (hv.restrict (S := (· ∈ n.states)) (fun p hp a r hr => ?_) hn.start_mem).1
      rcases mem_targets_chain.1 hr with (hr | hr) | ⟨haccept, -, -⟩
      · exact absurd hp (hmn p (hm.mem_of_target hr))
      · exact ⟨hr, hn.target_mem p a r hr⟩
      · exact absurd hp (hmn p (hm.accept_mem p haccept))
  · rintro ⟨u, ⟨s, hs, hu⟩, v, ⟨t, ht, hv⟩, rfl⟩
    refine ⟨t, ht, Path.trans ?_ (.silent (mem_targets_chain.2 (.inr ⟨hs, rfl, rfl⟩)) ?_)⟩
    · exact hu.mono fun _ _ _ hr => mem_targets_chain.2 (.inl (.inl hr))
    · exact hv.mono fun _ _ _ hr => mem_targets_chain.2 (.inl (.inr hr))

/-! ### Repetition -/

theorem mem_targets_loop : r ∈ (n.loop q).targets p a ↔
    r ∈ n.targets p a ∨ (p = q ∨ p ∈ n.accept) ∧ a = none ∧ r = n.start := by
  rw [targets, loop, Moves.mem_getD_link, Moves.mem_getD_extend, targets]
  simp
  grind

theorem mem_accept_loop : p ∈ (n.loop q).accept ↔ p = q ∨ p ∈ n.accept := mem_insert_iff

theorem WellFormed.loop (hn : n.WellFormed) (q : State) : (n.loop q).WellFormed where
  start_mem := ExtTreeSet.mem_insert_self
  accept_mem p hp := mem_insert_iff.2 ((mem_accept_loop.1 hp).imp_right (hn.accept_mem p))
  source_mem p a hp := by
    refine mem_insert_iff.2 ?_
    rcases Moves.mem_link hp with hp | hp
    · rcases Moves.mem_extend.1 hp with hp | hp
      · exact .inr (hn.source_mem p a hp)
      · exact .inl (Prod.mk.inj hp).1.symm
    · exact .inr (hn.accept_mem p hp)
  target_mem p a r hr := by
    refine mem_insert_iff.2 (.inr ?_)
    rcases mem_targets_loop.1 hr with hr | ⟨-, -, rfl⟩
    · exact hn.target_mem p a r hr
    · exact hn.start_mem

/-- A path among the old states goes on with words of the language after its first return to the
old start. -/
theorem Path.of_loop (hn : n.WellFormed) (hq : q ∉ n.states) (h : (n.loop q).Path p w r)
    (hp : p ∈ n.states) (hr : r ∈ (n.loop q).accept) :
    ∃ u v, w = u ++ v ∧ (∃ t ∈ n.accept, n.Path p u t) ∧ v ∈ n.language∗ := by
  induction h using Path.induction_on_moves with
  | refl =>
    have hne : r ≠ q := fun e => hq (e ▸ hp)
    have haccept := (mem_accept_loop.1 hr).resolve_left hne
    exact ⟨[], [], rfl, ⟨r, haccept, .refl r⟩, Language.nil_mem_kstar _⟩
  | move p a s w hs _ ih =>
    rcases mem_targets_loop.1 hs with hs | ⟨hback, rfl, rfl⟩
    · obtain ⟨u, v, rfl, ⟨t, ht, hu⟩, hv⟩ := ih (hn.target_mem p a s hs)
      exact ⟨a.toList ++ u, v, (List.append_assoc ..).symm, ⟨t, ht, .cons hs hu⟩, hv⟩
    · have hne : p ≠ q := fun e => hq (e ▸ hp)
      obtain ⟨u, v, rfl, hu, hv⟩ := ih hn.start_mem
      refine ⟨[], u ++ v, rfl, ⟨p, hback.resolve_left hne, .refl p⟩, ?_⟩
      exact append_mem_kstar hu hv

theorem path_loop_of_mem_kstar (hw : w ∈ n.language∗) (hp : p ∈ (n.loop q).accept) :
    ∃ t ∈ (n.loop q).accept, (n.loop q).Path p w t := by
  obtain ⟨ws, rfl, hws⟩ := Language.mem_kstar.1 hw
  clear hw
  induction ws generalizing p with
  | nil => exact ⟨p, hp, .refl p⟩
  | cons u ws ih =>
    obtain ⟨s, hs, hu⟩ := hws u List.mem_cons_self
    obtain ⟨t, ht, hpath⟩ := ih (mem_accept_loop.2 (.inr hs))
      fun v hv => hws v (List.mem_cons_of_mem u hv)
    refine ⟨t, ht, .silent (mem_targets_loop.2 (.inr ⟨mem_accept_loop.1 hp, rfl, rfl⟩)) ?_⟩
    exact (hu.mono fun _ _ _ hr => mem_targets_loop.2 (.inl hr)).trans hpath

theorem language_loop (hn : n.WellFormed) (hq : q ∉ n.states) :
    (n.loop q).language = n.language∗ := by
  ext w
  constructor
  · rintro ⟨t, ht, hpath⟩
    rcases hpath.eq_or_exists_move with ⟨rfl, -⟩ | ⟨a, p, v, hp, hpath, rfl⟩
    · exact Language.nil_mem_kstar _
    · rcases mem_targets_loop.1 hp with hp | ⟨-, rfl, rfl⟩
      · exact absurd (hn.mem_of_target hp) hq
      · obtain ⟨u, v, rfl, hu, hv⟩ := hpath.of_loop hn hq hn.start_mem ht
        exact append_mem_kstar (u := u) hu hv
  · intro hw
    exact path_loop_of_mem_kstar hw (mem_accept_loop.2 (.inl rfl))

/-! ### Turning round -/

theorem mem_targets_mirror : r ∈ (n.mirror q).targets p a ↔
    p ∈ n.targets r a ∨ p = q ∧ a = none ∧ r ∈ n.accept := by
  rw [targets, mirror, Moves.mem_getD_extend, mem_getD_turnedMoves, Prod.mk.injEq]
  grind

theorem WellFormed.mirror (hn : n.WellFormed) (q : State) : (n.mirror q).WellFormed where
  start_mem := ExtTreeSet.mem_insert_self
  accept_mem p hp := by
    obtain rfl := mem_singleton_iff.1 hp
    exact mem_insert_iff.2 (.inr hn.start_mem)
  source_mem p a hp := by
    refine mem_insert_iff.2 ?_
    rcases Moves.mem_extend.1 hp with hp | hp
    · obtain ⟨r, hr⟩ := mem_turnedMoves hp
      exact .inr (hn.target_mem r a p hr)
    · exact .inl (Prod.mk.inj hp).1.symm
  target_mem p a r hr := by
    refine mem_insert_iff.2 (.inr ?_)
    rcases mem_targets_mirror.1 hr with hr | ⟨-, -, hr⟩
    · exact hn.mem_of_target hr
    · exact hn.accept_mem r hr

theorem language_mirror (hn : n.WellFormed) (hq : q ∉ n.states) :
    (n.mirror q).language = n.language.reverse := by
  ext w
  rw [Language.mem_reverse]
  constructor
  · rintro ⟨t, ht, hpath⟩
    obtain rfl := mem_singleton_iff.1 ht
    rcases hpath.eq_or_exists_move with ⟨-, rfl⟩ | ⟨a, p, v, hp, hrest, rfl⟩
    · exact absurd hn.start_mem hq
    · rcases mem_targets_mirror.1 hp with hp | ⟨-, rfl, haccept⟩
      · exact absurd (hn.target_mem p a _ hp) hq
      · refine ⟨p, haccept, hrest.reverse (S := (· ∈ n.states)) (fun s hs a r hr => ?_)
          (hn.accept_mem p haccept)⟩
        rcases mem_targets_mirror.1 hr with hr | ⟨rfl, -⟩
        · exact ⟨hr, hn.mem_of_target hr⟩
        · exact absurd hs hq
  · rintro ⟨t, ht, hpath⟩
    have hback := hpath.reverse (n := n.mirror q) (S := fun _ => True)
      (fun p _ a r hr => ⟨mem_targets_mirror.2 (.inl hr), trivial⟩) trivial
    rw [List.reverse_reverse] at hback
    exact ⟨n.start, by simp [mirror], .silent (mem_targets_mirror.2 (.inr ⟨rfl, rfl, ht⟩)) hback⟩

/-! ### Renaming -/

theorem WellFormed.mapStates (hn : n.WellFormed) (f : State → State) :
    (n.mapStates f).WellFormed where
  start_mem := StateSet.mem_image.2 ⟨n.start, hn.start_mem, rfl⟩
  accept_mem p hp := by
    obtain ⟨q, hq, rfl⟩ := StateSet.mem_image.1 hp
    exact StateSet.mem_image.2 ⟨q, hn.accept_mem q hq, rfl⟩
  source_mem p a hp := by
    obtain ⟨q, hq, rfl⟩ := mem_moves_mapStates hp
    exact StateSet.mem_image.2 ⟨q, hn.source_mem q a hq, rfl⟩
  target_mem p a t ht := by
    obtain ⟨q, r, hr, -, rfl⟩ := mem_targets_mapStates.1 ht
    exact StateSet.mem_image.2 ⟨r, hn.target_mem q a r hr, rfl⟩

theorem language_mapStates (hn : n.WellFormed)
    (hf : ∀ p ∈ n.states, ∀ q ∈ n.states, f p = f q → p = q) :
    (n.mapStates f).language = n.language := by
  ext w
  constructor
  · rintro ⟨t, ht, hpath⟩
    obtain ⟨s, hs, rfl⟩ := StateSet.mem_image.1 ht
    obtain ⟨r, hr, hrs, hrn⟩ := hpath.simulate (n := n) (R := fun q' q => f q = q' ∧ q ∈ n.states)
      (fun _ q hq a t ht => by
        obtain ⟨p, r, hr, hp, rfl⟩ := mem_targets_mapStates.1 ht
        obtain rfl := hf p (hn.mem_of_target hr) q hq.2 (hp.trans hq.1.symm)
        exact ⟨r, hr, rfl, hn.target_mem p a r hr⟩) ⟨rfl, hn.start_mem⟩
    obtain rfl := hf r hrn s (hn.accept_mem s hs) hrs
    exact ⟨r, hs, hr⟩
  · rintro ⟨t, ht, hpath⟩
    obtain ⟨t', hpath, rfl⟩ := hpath.simulate (n := n.mapStates f) (R := fun q q' => f q = q')
      (fun q q' hq' a r hr => ⟨f r, mem_targets_mapStates.2 ⟨q, r, hr, hq', rfl⟩, rfl⟩) rfl
    exact ⟨f t, StateSet.mem_image.2 ⟨t, ht, rfl⟩, hpath⟩

/-! ### Deterministic automata -/

theorem wellFormed_toNfa (hd : d.WellFormed) : d.toNfa.WellFormed where
  start_mem := hd.start_mem
  accept_mem := hd.accept_mem
  source_mem q a h := by
    obtain ⟨c, r, hnext⟩ := mem_moves_toNfa h
    exact hd.source_mem q c r hnext
  target_mem q a r h := by
    obtain ⟨c, -, hnext⟩ := mem_targets_toNfa.1 h
    exact hd.target_mem q c r hnext

theorem path_toNfa_iff : d.toNfa.Path q w r ↔ d.run q w = some r := by
  induction w generalizing q with
  | nil =>
    rw [Dfa.run_nil, Option.some.injEq]
    constructor
    · intro h
      rcases h.eq_or_exists_move with ⟨-, rfl⟩ | ⟨a, p, v, hp, -, hv⟩
      · rfl
      · obtain ⟨c, rfl, -⟩ := mem_targets_toNfa.1 hp
        cases hv
    · rintro rfl
      exact .refl q
  | cons c w ih =>
    rw [Dfa.run_cons_eq_some]
    constructor
    · intro h
      rcases h.eq_or_exists_move with ⟨h, -⟩ | ⟨a, p, v, hp, hpath, hv⟩
      · cases h
      · obtain ⟨c', rfl, hnext⟩ := mem_targets_toNfa.1 hp
        obtain ⟨rfl, rfl⟩ := List.cons.inj hv
        exact ⟨p, hnext, ih.1 hpath⟩
    · rintro ⟨p, hnext, hpath⟩
      exact .read (mem_targets_toNfa.2 ⟨c, rfl, hnext⟩) (ih.2 hpath)

theorem language_toNfa (hd : d.WellFormed) : d.toNfa.language = d.language := by
  ext w
  have hletters : ∀ q r, d.run q w = some r → w ∈ d.alphabet.words := by
    induction w with
    | nil => exact fun _ _ _ => Alphabet.nil_mem_words
    | cons c w ih =>
      intro q r h
      obtain ⟨p, hnext, hrun⟩ := Dfa.run_cons_eq_some.1 h
      exact List.forall_mem_cons.2 ⟨hd.letter_mem q c p hnext, ih p r hrun⟩
  rw [Dfa.mem_language, mem_language]
  simp only [path_toNfa_iff]
  constructor
  · rintro ⟨q, hq, hrun⟩
    exact ⟨hletters _ _ hrun, q, hq, hrun⟩
  · rintro ⟨-, h⟩
    exact h

end Nfa

end FormalLanguages
