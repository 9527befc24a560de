import FormalLanguages.Proofs.Automaton.Determinize

/-!
# The closure of one state

The search takes states from a stack, where a state may stand several times. It ends because each
turn takes one state from the stack, and what is put there instead is paid for by moves from a state
that was not found before. What a state that is found leads to is found as well or still on the
stack, and so in the end just the states are found that can be reached.
-/

namespace FormalLanguages.Nfa

open Std Relation

variable {n : Nfa} {p q r : State} {qs : StateSet} {a : Label} {s s' : Closing}

/-! ### One turn -/

theorem mem_unfound {found : StateSet} :
    r ∈ n.unfound found q ↔ r ∈ n.targets q none ∧ r ∉ found := by
  simp [unfound]

theorem length_unfound_le {found : StateSet} :
    (n.unfound found q).length ≤ (n.targets q none).toList.length := by
  rw [unfound, List.length_reverse]
  exact List.length_filter_le _ _

/-- The top of the stack is known already and goes, or it is found and its targets take its
place. -/
theorem closeTop?_eq_some (h : n.closeTop? s = some s') : ∃ p stack, s.stack = p :: stack ∧
    (p ∈ s.found ∧ s' = ⟨s.found, stack⟩ ∨
      p ∉ s.found ∧ s' = ⟨s.found.insert p, n.unfound (s.found.insert p) p ++ stack⟩) := by
  unfold closeTop? at h
  split at h
  · cases h
  · next p stack hstack =>
    refine ⟨p, stack, hstack, ?_⟩
    split at h
    · next hp => exact .inl ⟨hp, (Option.some.inj h).symm⟩
    · next hp => exact .inr ⟨hp, (Option.some.inj h).symm⟩

theorem closeTop?_eq_none_iff : n.closeTop? s = none ↔ s.stack = [] := by
  unfold closeTop?
  split
  · next hstack => exact iff_of_true rfl hstack
  · next hstack => split <;> simp [hstack]

/-! ### The search ends -/

/-- Each move as its source and its target, whatever it reads. -/
def arrows (n : Nfa) : List (State × State) :=
  n.moves.toList.flatMap fun e => e.2.toList.map fun r => (e.1.1, r)

theorem length_arrows : n.arrows.length = n.targetCount := by
  have htargets : n.arrows.map (·.2) = n.allTargets := by
    simp [arrows, allTargets, List.map_flatMap, Function.comp_def]
  rw [← length_allTargets, ← htargets, List.length_map]

theorem mem_arrows (h : r ∈ n.targets q a) : (q, r) ∈ n.arrows := by
  obtain ⟨rs, hmove, hr⟩ := exists_mem_moves h
  exact List.mem_flatMap.2 ⟨_, hmove, List.mem_map_of_mem (ExtTreeSet.mem_toList.2 hr)⟩

theorem length_targets_le : (n.targets q a).toList.length ≤ n.arrows.countP (·.1 = q) := by
  have hnodup : ((n.targets q a).toList.map fun r => (q, r)).Nodup :=
    (nodup_toList _).map fun _ _ heq => (Prod.mk.inj heq).2
  have hsub : ((n.targets q a).toList.map fun r => (q, r)) ⊆ n.arrows.filter (·.1 = q) := by
    intro e he
    obtain ⟨r, hr, rfl⟩ := List.mem_map.1 he
    exact List.mem_filter.2 ⟨mem_arrows (ExtTreeSet.mem_toList.1 hr), by simp⟩
  have hle := hnodup.length_le_of_subset hsub
  rwa [List.length_map, ← List.countP_eq_length_filter] at hle

/-- The moves from states that are not found are those from one of them and those from the rest. -/
theorem countP_not_mem_insert {found : StateSet} (hq : q ∉ found) (l : List (State × State)) :
    l.countP (·.1 ∉ found) = l.countP (·.1 = q) + l.countP (·.1 ∉ found.insert q) := by
  induction l with
  | nil => rfl
  | cons e l ih =>
    simp only [List.countP_cons, ih, mem_insert_iff, not_or, decide_eq_true_eq]
    by_cases he : e.1 = q
    · simp only [he, hq, not_true_eq_false, not_false_eq_true, false_and, if_true, if_false]
      omega
    · by_cases hsource : e.1 ∈ found
      · simp [he, hsource]
      · simp only [he, hsource, not_false_eq_true, and_self, if_true, if_false]
        omega

/-- What is left to do: the stack, and the moves from states that are not found. -/
def Closing.rank (n : Nfa) (s : Closing) : Nat :=
  s.stack.length + n.arrows.countP (·.1 ∉ s.found)

theorem rank_lt_of_closeTop? (h : n.closeTop? s = some s') : s'.rank n < s.rank n := by
  unfold Closing.rank
  obtain ⟨p, stack, hstack, ⟨-, rfl⟩ | ⟨hp, rfl⟩⟩ := closeTop?_eq_some h
  · rw [hstack, List.length_cons]
    exact Nat.add_lt_add_right (Nat.lt_succ_self _) _
  · -- the moves from `p` leave the rank and pay for what is put on the stack
    have hpaid : (n.unfound (s.found.insert p) p).length ≤ n.arrows.countP (·.1 = p) :=
      length_unfound_le.trans length_targets_le
    rw [hstack, List.length_cons, countP_not_mem_insert hp]
    dsimp only
    rw [List.length_append]
    omega

/-- The search for what is reached from one state, at its beginning and at its end. -/
theorem exhausts_closeTop? (n : Nfa) (q : State) : Exhausts n.closeTop? { stack := [q] }
    (exhaust n.closeTop? (n.targetCount + 1) { stack := [q] }) := by
  apply exhausts_exhaust (P := fun _ => True) (Closing.rank n) (fun _ _ _ _ => trivial)
    (fun _ _ _ => rank_lt_of_closeTop?) trivial
  calc Closing.rank n { stack := [q] }
    _ ≤ 1 + n.arrows.length := Nat.add_le_add_left List.countP_le_length 1
    _ = n.targetCount + 1 := by rw [length_arrows, Nat.add_comm]

/-! ### What is found -/

def Closing.Met (s : Closing) (r : State) : Prop := r ∈ s.found ∨ r ∈ s.stack

/-- A turn forgets no state. It finds the top of the stack, and what is met for the first time are
targets of that. -/
theorem exists_top_of_closeTop? (h : n.closeTop? s = some s') : ∃ p, s.Met p ∧
    (∀ r, r ∈ s'.found ↔ r = p ∨ r ∈ s.found) ∧
    ∀ r, s'.Met r ↔ s.Met r ∨ p ∉ s.found ∧ r ∈ n.targets p none := by
  unfold Closing.Met
  obtain ⟨p, stack, hstack, ⟨hp, rfl⟩ | ⟨hp, rfl⟩⟩ := closeTop?_eq_some h
  · refine ⟨p, .inl hp, ?_, ?_⟩
    · grind
    · grind
  · refine ⟨p, .inr (by simp [hstack]), fun r => mem_insert_iff, fun r => ?_⟩
    simp only [hstack, mem_insert_iff, List.mem_append, List.mem_cons, mem_unfound]
    grind

/-- Between two turns: all that is met can be reached from the state that the search began with,
which is met itself, and so are the targets of all that is found. -/
structure Closing.From (n : Nfa) (q : State) (s : Closing) : Prop where
  reached : ∀ r, s.Met r → ReflTransGen (fun q r => r ∈ n.targets q none) q r
  begun : s.Met q
  followed : ∀ p ∈ s.found, ∀ r ∈ n.targets p none, s.Met r

theorem Closing.from_init : Closing.From n q { stack := [q] } where
  reached r hr := by
    rcases hr with hr | hr
    · exact absurd hr ExtTreeSet.not_mem_empty
    · rw [List.mem_singleton.1 hr]
  begun := .inr List.mem_cons_self
  followed p hp := absurd hp ExtTreeSet.not_mem_empty

theorem Closing.From.next (hs : s.From n q) (h : n.closeTop? s = some s') : s'.From n q := by
  obtain ⟨p, hp, hfound, hmet⟩ := exists_top_of_closeTop? h
  constructor
  · intro r hr
    rcases (hmet r).1 hr with hr | ⟨-, hr⟩
    · exact hs.reached r hr
    · exact (hs.reached p hp).tail hr
  · exact (hmet q).2 (.inl hs.begun)
  · intro r hr t ht
    by_cases hold : r ∈ s.found
    · exact (hmet t).2 (.inl (hs.followed r hold t ht))
    · -- `r` was on top of the stack, and this turn puts its targets there
      obtain rfl := ((hfound r).1 hr).resolve_right hold
      exact (hmet t).2 (.inr ⟨hold, ht⟩)

/-- When the stack is empty, all that can be reached is found. -/
theorem Closing.From.mem_found_iff (hs : s.From n q) (hstack : s.stack = []) :
    r ∈ s.found ↔ ReflTransGen (fun q r => r ∈ n.targets q none) q r := by
  have hfound : ∀ r, s.Met r → r ∈ s.found := by
    intro r hr
    exact hr.resolve_right (hstack ▸ List.not_mem_nil)
  constructor
  · intro hr
    exact hs.reached r (.inl hr)
  · intro h
    induction h with
    | refl => exact hfound q hs.begun
    | tail _ hmove ih => exact hfound _ (hs.followed _ ih _ hmove)

theorem mem_epsilonClosure_iff :
    r ∈ n.epsilonClosure q ↔ ReflTransGen (fun q r => r ∈ n.targets q none) q r := by
  have hend := (exhausts_closeTop? n q).step?_eq_none
  apply Closing.From.mem_found_iff _ (closeTop?_eq_none_iff.1 hend)
  exact exhaust_induction (P := Closing.From n q) (fun _ _ hs h => hs.next h) _ Closing.from_init

/-- What is reached from some states is what is reached from one of them. -/
theorem mem_closure_iff_exists : r ∈ n.closure qs ↔ ∃ q ∈ qs, r ∈ n.epsilonClosure q := by
  rw [mem_closure_iff]
  simp only [mem_epsilonClosure_iff, reflTransGen_silent_iff]

theorem mem_epsilonClosure_of_mem (hr : r ∈ n.epsilonClosure q) (hp : p ∈ n.epsilonClosure r) :
    p ∈ n.epsilonClosure q :=
  mem_epsilonClosure_iff.2 ((mem_epsilonClosure_iff.1 hr).trans (mem_epsilonClosure_iff.1 hp))

theorem closure_epsilonClosure (n : Nfa) (q : State) :
    n.closure (n.epsilonClosure q) = n.epsilonClosure q := by
  apply ExtTreeSet.ext_mem
  intro r
  rw [mem_closure_iff_exists]
  constructor
  · rintro ⟨p, hp, hr⟩
    exact mem_epsilonClosure_of_mem hp hr
  · intro hr
    exact ⟨r, hr, mem_epsilonClosure_iff.2 .refl⟩

/-- From any state of any automaton the search ends, and it finds what is reached by any number of
moves that read nothing. Closing what is closed adds nothing, and closing more states, or along
more moves, finds no less. -/
theorem epsilonClosure_exact (n : Nfa) :
    (∀ q, ∃ s, Exhausts n.closeTop? { stack := [q] } s ∧ n.epsilonClosure q = s.found) ∧
      (∀ q r, r ∈ n.epsilonClosure q ↔ ReflTransGen (fun q r => r ∈ n.targets q none) q r) ∧
      (∀ q, ∀ r ∈ n.epsilonClosure q, ∀ p ∈ n.epsilonClosure r, p ∈ n.epsilonClosure q) ∧
      (∀ q, n.closure (n.epsilonClosure q) = n.epsilonClosure q) ∧
      (∀ qs r, r ∈ n.closure qs ↔ ∃ q ∈ qs, r ∈ n.epsilonClosure q) ∧
      (∀ qs qs', (∀ q ∈ qs, q ∈ qs') → ∀ r ∈ n.closure qs, r ∈ n.closure qs') ∧
      ∀ m : Nfa, (∀ q r, r ∈ n.targets q none → r ∈ m.targets q none) →
        ∀ q, ∀ r ∈ n.epsilonClosure q, r ∈ m.epsilonClosure q := by
  refine ⟨fun q => ⟨_, exhausts_closeTop? n q, rfl⟩, fun q r => mem_epsilonClosure_iff, ?_,
    closure_epsilonClosure n, fun qs r => mem_closure_iff_exists, ?_, ?_⟩
  · intro q r hr p hp
    exact mem_epsilonClosure_of_mem hr hp
  · intro qs qs' hsub r hr
    obtain ⟨q, hq, hr⟩ := mem_closure_iff_exists.1 hr
    exact mem_closure_iff_exists.2 ⟨q, hsub q hq, hr⟩
  · intro m hmoves q r hr
    exact mem_epsilonClosure_iff.2 (ReflTransGen.mono hmoves _ _ (mem_epsilonClosure_iff.1 hr))

/-- A move from a state to itself, and a cycle through states that are not declared. -/
example : (epsilonClosure ⟨{0}, ∅, 0,
    .ofList [((0, none), .ofList [0, 1]), ((1, none), {2}), ((2, none), .ofList [0, 1])] _, ∅⟩
    0).toList = [0, 1, 2] := by decide +kernel

end FormalLanguages.Nfa
