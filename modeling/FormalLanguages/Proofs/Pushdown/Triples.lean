import FormalLanguages.Proofs.Grammar.Names
import FormalLanguages.Proofs.Grammar.WellFormed
import FormalLanguages.Proofs.Pushdown.Runs
import FormalLanguages.Pushdown.Triples
import Mathlib.Data.List.Basic

/-!
# The ways of a pushdown automaton

The variable for the ways between two states derives what the runs read that begin and end without
a stack. A run that ends without a stack is taken apart along the stack it begins with: each symbol
is popped at some time, and until then there is a way.
-/

namespace FormalLanguages.Pushdown

open Std Grammar

variable {c : Pushdown} {m : Move} {q q' r r' accept : State} {s : List StackSymbol}
  {u v w : List String} {x : String} {b : Rule}

theorem Move.push_or_pop (h : m.isCanonical = true) :
    (∃ a, m.pop = none ∧ m.push = some a) ∨ ∃ a, m.pop = some a ∧ m.push = none := by
  cases hpop : m.pop <;> cases hpush : m.push <;> simp_all [isCanonical]

/-! ### The names of the ways -/

theorem toList_wayVariable (q r : State) :
    (wayVariable q r).toList = 'A' :: (Nat.toDigits 10 q ++ '_' :: Nat.toDigits 10 r) := by
  have hA : "A".toList = ['A'] := by decide
  have hdash : "_".toList = ['_'] := by decide
  simp only [wayVariable, String.toList_append, Nat.toString_eq_repr, Nat.toList_repr, hA, hdash,
    List.append_assoc, List.cons_append, List.nil_append]

theorem wayVariable_injective (h : wayVariable q r = wayVariable q' r') : q = q' ∧ r = r' := by
  have hdash : ∀ n, '_' ∉ Nat.toDigits 10 n := not_mem_toDigits (by decide)
  have hlist := congrArg String.toList h
  rw [toList_wayVariable, toList_wayVariable, List.cons.injEq] at hlist
  obtain ⟨hq, -, hr⟩ := (List.append_cons_inj_of_notMem (hdash q) (hdash r)).1 hlist.2
  exact ⟨toDigits_injective hq, toDigits_injective hr⟩

theorem wayVariable_ne (h : x.toList.head? ≠ some 'A') : wayVariable q r ≠ x := by
  rintro rfl
  exact h (by rw [toList_wayVariable]; rfl)

theorem wayVariable_ne_epsilon (q r : State) : wayVariable q r ≠ epsilonSymbol :=
  wayVariable_ne (by decide)

/-! ### The rules of the ways -/

theorem mem_enclosingRules_iff {pushes pops : List Move} {rule : WayRule} :
    rule ∈ enclosingRules pushes pops ↔
      ∃ push ∈ pushes, ∃ pop ∈ pops, pop.pop = push.push ∧ enclosingRule push pop = rule := by
  simp only [enclosingRules, List.mem_flatMap, ExtTreeSet.mem_toList, ExtTreeSet.mem_ofList,
    List.mem_filter, List.mem_map, Prod.exists, decide_eq_true_eq, List.contains_eq_mem,
    Prod.mk.injEq]
  constructor
  · rintro ⟨r, u, -, pop, ⟨hpop, rfl⟩, push, ⟨hpush, -, hsame⟩, rfl⟩
    exact ⟨push, hpush, pop, hpop, hsame.symm, rfl⟩
  · rintro ⟨push, hpush, pop, hpop, hsame, rfl⟩
    exact ⟨push.target, push.push, ⟨push, hpush, rfl, rfl⟩, pop, ⟨hpop, hsame⟩, push,
      ⟨hpush, rfl, rfl⟩, rfl⟩

theorem mem_wayRules_iff : (x, b) ∈ c.wayRules ↔
    (∃ push ∈ c.moves, ∃ pop ∈ c.moves, push.push.isSome ∧ pop.pop = push.push ∧
      enclosingRule push pop = (x, b)) ∨
    (∃ p ∈ c.states, ∃ q ∈ c.states, ∃ r ∈ c.states,
      x = wayVariable p q ∧ b = [wayVariable p r, wayVariable r q]) ∨
    ∃ p ∈ c.states, x = wayVariable p p ∧ b = Rule.epsilon := by
  simp only [wayRules, List.mem_append, mem_enclosingRules_iff, splittingRules, emptyRules,
    List.mem_flatMap, List.mem_map, List.mem_filter, ExtTreeSet.mem_toList, Prod.mk.injEq, or_assoc,
    eq_comm (b := x), eq_comm (b := b)]
  apply or_congr_left
  constructor
  · rintro ⟨push, ⟨hpush, hsome⟩, pop, ⟨hpop, -⟩, h⟩
    exact ⟨push, hpush, pop, hpop, hsome, h⟩
  · rintro ⟨push, hpush, pop, hpop, hsome, hsame, h⟩
    exact ⟨push, ⟨hpush, hsome⟩, pop, ⟨hpop, hsame ▸ hsome⟩, hsame, h⟩

/-! ### The grammar -/

/-- An automaton in canonical form whose tokens are different from the names of the ways between
its states. -/
structure Suited (c : Pushdown) : Prop where
  isCanonical : ∀ m ∈ c.moves, m.isCanonical = true
  source_mem : ∀ m ∈ c.moves, m.source ∈ c.states
  target_mem : ∀ m ∈ c.moves, m.target ∈ c.states
  read_mem : ∀ m ∈ c.moves, ∀ t, m.read = some t → t ∈ c.input
  epsilon_not_mem : epsilonSymbol ∉ c.input
  way_not_mem : ∀ q ∈ c.states, ∀ r ∈ c.states, wayVariable q r ∉ c.input

def ways (c : Pushdown) (accept : State) : Grammar :=
  (Grammar.empty c.input (wayVariable c.start accept)).addRules c.wayRules

@[simp] theorem terminals_ways (c : Pushdown) (accept : State) :
    (c.ways accept).terminals = c.input := terminals_addRules ..

theorem start_ways (c : Pushdown) (accept : State) :
    (c.ways accept).start = wayVariable c.start accept := start_addRules ..

namespace Suited

variable (hc : c.Suited)
include hc

theorem exists_way_of_mem_wayRules (h : (x, b) ∈ c.wayRules) :
    ∃ q ∈ c.states, ∃ r ∈ c.states, x = wayVariable q r := by
  rcases mem_wayRules_iff.1 h with ⟨push, hpush, pop, hpop, -, -, heq⟩ |
    ⟨q, hq, r, hr, _, -, rfl, -⟩ | ⟨q, hq, rfl, -⟩
  · exact ⟨_, hc.source_mem push hpush, _, hc.target_mem pop hpop, (Prod.ext_iff.1 heq).1.symm⟩
  · exact ⟨q, hq, r, hr, rfl⟩
  · exact ⟨q, hq, q, hq, rfl⟩

theorem wellFormed_ways (hstart : c.start ∈ c.states) (haccept : accept ∈ c.states) :
    (c.ways accept).WellFormed := by
  apply wellFormed_of_rules hc.epsilon_not_mem
  · exact ⟨hc.way_not_mem _ hstart _ haccept, wayVariable_ne_epsilon _ _⟩
  · rintro ⟨x, b⟩ hrule
    obtain ⟨q, hq, r, hr, rfl⟩ := hc.exists_way_of_mem_wayRules hrule
    exact ⟨hc.way_not_mem q hq r hr, wayVariable_ne_epsilon q r⟩

theorem epsilon_not_mem_read (hm : m ∈ c.moves) : epsilonSymbol ∉ m.read.toList := by
  intro h
  exact hc.epsilon_not_mem (hc.read_mem m hm _ (Option.mem_toList.1 h))

theorem collapse_wayRule (h : (x, b) ∈ c.wayRules) : b.collapse = b := by
  rcases mem_wayRules_iff.1 h with ⟨push, hpush, pop, hpop, -, -, heq⟩ |
    ⟨p, -, q, -, r, -, -, rfl⟩ | ⟨p, -, -, rfl⟩
  · obtain ⟨-, rfl⟩ := Prod.ext_iff.1 heq
    apply Rule.collapse_eq_self
    · simp [enclosingRule]
    · simp only [enclosingRule, List.mem_append, List.mem_cons, not_or]
      exact ⟨hc.epsilon_not_mem_read hpush, (wayVariable_ne_epsilon _ _).symm,
        hc.epsilon_not_mem_read hpop⟩
  · apply Rule.collapse_eq_self
    · simp
    · simp [(wayVariable_ne_epsilon _ _).symm]
  · exact Rule.collapse_epsilon

theorem mem_rules_ways : b ∈ (c.ways accept).rules x ↔ (x, b) ∈ c.wayRules := by
  rw [ways, mem_rules_addRules, rules_empty]
  constructor
  · rintro (⟨r, hr, rfl⟩ | h)
    · rwa [hc.collapse_wayRule hr]
    · exact absurd h ExtTreeSet.not_mem_empty
  · exact fun h => .inl ⟨b, h, hc.collapse_wayRule h⟩

/-! ### From derivations to runs -/

/-- What the symbols of the grammar mean. -/
def Means (c : Pushdown) (x : String) (w : List String) : Prop :=
  (x = epsilonSymbol → w = []) ∧ (x ∈ c.input → w = [x]) ∧
    ∀ q ∈ c.states, ∀ r ∈ c.states, x = wayVariable q r → c.Run q [] w r []

omit hc in
theorem eq_of_expands_read (hread : ∀ t, m.read = some t → t ∈ c.input)
    (h : Rule.Expands (Means c) m.read.toList w) : w = m.read.toList := by
  cases hm : m.read with
  | none =>
    rw [hm] at h
    exact Rule.expands_nil_iff.1 h
  | some t =>
    rw [hm] at h
    exact (Rule.expands_singleton_iff.1 h).2.1 (hread t hm)

/-- A push, a way, and the pop that undoes the push. -/
theorem run_enclosing {push pop : Move} (hpush : push ∈ c.moves) (hpop : pop ∈ c.moves)
    (hsome : push.push.isSome) (hsame : pop.pop = push.push)
    (h : c.Run push.target [] u pop.source []) :
    c.Run push.source [] (push.read.toList ++ (u ++ pop.read.toList)) pop.target [] := by
  have hfirst := Run.single hpush []
  have hlast := Run.single hpop []
  rcases Move.push_or_pop (hc.isCanonical push hpush) with ⟨a, hnone, ha⟩ | ⟨a, -, hnone⟩
  · rw [hnone, ha] at hfirst
    rcases Move.push_or_pop (hc.isCanonical pop hpop) with ⟨b, hpopnone, -⟩ | ⟨b, -, hpushnone⟩
    · rw [hpopnone, ha] at hsame
      cases hsame
    · rw [hsame, ha, hpushnone] at hlast
      exact hfirst.trans ((h.under [a]).trans hlast)
  · rw [hnone] at hsome
    cases hsome

theorem means_of_rule (hrule : (x, b) ∈ c.wayRules) (h : Rule.Expands (Means c) b w) :
    Means c x w := by
  obtain ⟨q, hq, r, hr, rfl⟩ := hc.exists_way_of_mem_wayRules hrule
  refine ⟨fun heq => absurd heq (wayVariable_ne_epsilon q r),
    fun hmem => absurd hmem (hc.way_not_mem q hq r hr), ?_⟩
  intro q' _ r' _ hway
  obtain ⟨rfl, rfl⟩ := wayVariable_injective hway
  rcases mem_wayRules_iff.1 hrule with ⟨push, hpush, pop, hpop, hsome, hsame, heq⟩ |
    ⟨p, -, p', -, t, ht, hx, rfl⟩ | ⟨p, -, hx, rfl⟩
  · obtain ⟨hx, rfl⟩ := Prod.ext_iff.1 heq
    obtain ⟨rfl, rfl⟩ := wayVariable_injective hx
    obtain ⟨y, z, hy, hz, rfl⟩ := Rule.expands_append_iff.1 h
    obtain ⟨u, v, hu, hv, rfl⟩ := Rule.expands_cons_iff.1 hz
    rw [eq_of_expands_read (hc.read_mem push hpush) hy,
      eq_of_expands_read (hc.read_mem pop hpop) hv]
    exact hc.run_enclosing hpush hpop hsome hsame
      (hu.2.2 _ (hc.target_mem push hpush) _ (hc.source_mem pop hpop) rfl)
  · obtain ⟨rfl, rfl⟩ := wayVariable_injective hx
    obtain ⟨u, v, hu, hv, rfl⟩ := Rule.expands_cons_iff.1 h
    have hv := Rule.expands_singleton_iff.1 hv
    exact (hu.2.2 _ hq _ ht rfl).trans (hv.2.2 _ ht _ hr rfl)
  · obtain ⟨rfl, rfl⟩ := wayVariable_injective hx
    rw [(Rule.expands_singleton_iff.1 h).1 rfl]
    exact .refl ..

theorem run_of_yields (hq : q ∈ c.states) (hr : r ∈ c.states)
    (h : (c.ways accept).Yields [wayVariable q r] w) : c.Run q [] w r [] := by
  have hmeans : Rule.Expands (Means c) [wayVariable q r] w := by
    apply h.expands
    · refine ⟨fun _ => rfl, fun hmem => absurd hmem hc.epsilon_not_mem, fun q _ r _ heq => ?_⟩
      exact absurd heq.symm (wayVariable_ne_epsilon q r)
    · intro t ht
      rw [terminals_ways] at ht
      refine ⟨fun heq => absurd (heq ▸ ht) hc.epsilon_not_mem, fun _ => rfl,
        fun q hq r hr heq => ?_⟩
      exact absurd (heq ▸ ht) (hc.way_not_mem q hq r hr)
    · exact fun x b hb u hu => hc.means_of_rule (hc.mem_rules_ways.1 hb) hu
  exact (Rule.expands_singleton_iff.1 hmeans).2.2 q hq r hr rfl

/-! ### From runs to derivations -/

omit hc in
/-- The symbols of a stack are popped one after another, with a way before each of them and a way
after the last. -/
def Unwinds (c : Pushdown) (accept r : State) : State → List StackSymbol → List String → Prop
  | q, [], w => (c.ways accept).Yields [wayVariable q r] w
  | q, a :: s, w => ∃ pop ∈ c.moves, pop.pop = some a ∧ ∃ u v,
    (c.ways accept).Yields [wayVariable q pop.source] u ∧ Unwinds c accept r pop.target s v ∧
      w = u ++ (pop.read.toList ++ v)

theorem yields_way_self (hq : q ∈ c.states) : (c.ways accept).Yields [wayVariable q q] [] :=
  .of_rule (hc.mem_rules_ways.2 (mem_wayRules_iff.2 (.inr (.inr ⟨q, hq, rfl, rfl⟩))))
    (.epsilon .nil)

theorem yields_way_trans (hq : q ∈ c.states) (hq' : q' ∈ c.states) (hr : r ∈ c.states)
    (hu : (c.ways accept).Yields [wayVariable q q'] u)
    (hv : (c.ways accept).Yields [wayVariable q' r] v) :
    (c.ways accept).Yields [wayVariable q r] (u ++ v) := by
  apply Yields.of_rule _ (hu.append hv)
  exact hc.mem_rules_ways.2 (mem_wayRules_iff.2 (.inr (.inl ⟨q, hq, r, hr, q', hq', rfl, rfl⟩)))

theorem yields_read (hm : m ∈ c.moves) : (c.ways accept).Yields m.read.toList m.read.toList := by
  cases hread : m.read with
  | none => exact .nil
  | some t =>
    apply Yields.terminal _ .nil
    rw [terminals_ways]
    exact hc.read_mem m hm t hread

theorem yields_enclosing {push pop : Move} (hpush : push ∈ c.moves) (hpop : pop ∈ c.moves)
    (hsome : push.push.isSome) (hsame : pop.pop = push.push)
    (h : (c.ways accept).Yields [wayVariable push.target pop.source] u) :
    (c.ways accept).Yields [wayVariable push.source pop.target]
      (push.read.toList ++ (u ++ pop.read.toList)) := by
  apply Yields.of_rule _ ((hc.yields_read hpush).append (h.append (hc.yields_read hpop)))
  exact hc.mem_rules_ways.2 (mem_wayRules_iff.2 (.inl ⟨push, hpush, pop, hpop, hsome, hsame, rfl⟩))

/-- A way can come first. -/
theorem unwinds_of_way (hq : q ∈ c.states) (hq' : q' ∈ c.states) (hr : r ∈ c.states)
    (hu : (c.ways accept).Yields [wayVariable q q'] u) (h : Unwinds c accept r q' s w) :
    Unwinds c accept r q s (u ++ w) := by
  cases s with
  | nil => exact hc.yields_way_trans hq hq' hr hu h
  | cons a s =>
    obtain ⟨pop, hpop, ha, x, y, hx, hy, rfl⟩ := h
    refine ⟨pop, hpop, ha, u ++ x, y, ?_, hy, (List.append_assoc ..).symm⟩
    exact hc.yields_way_trans hq hq' (hc.source_mem pop hpop) hu hx

theorem unwinds_of_run (hr : r ∈ c.states) (hq : q ∈ c.states) (h : c.Run q s w r []) :
    Unwinds c accept r q s w := by
  generalize ht : ([] : List StackSymbol) = t at h
  induction h with
  | refl q s =>
    subst ht
    exact hc.yields_way_self hq
  | @step m s w r t hm _ ih =>
    have hsource := hc.source_mem m hm
    have htarget := hc.target_mem m hm
    have hrest := ih hr htarget ht
    rcases Move.push_or_pop (hc.isCanonical m hm) with ⟨a, hpop, hpush⟩ | ⟨a, hpop, hpush⟩
    · rw [hpush] at hrest
      obtain ⟨pop, hmem, ha, u, v, hu, hv, rfl⟩ := hrest
      have hway := hc.yields_enclosing hm hmem (hpush ▸ rfl) (ha.trans hpush.symm) hu
      have h := hc.unwinds_of_way hsource (hc.target_mem pop hmem) hr hway hv
      rw [hpop]
      simp only [List.append_assoc] at h
      exact h
    · rw [hpush] at hrest
      rw [hpop]
      exact ⟨m, hm, hpop, [], w, hc.yields_way_self hsource, hrest, rfl⟩

theorem derives_ways_iff (hstart : c.start ∈ c.states) (haccept : accept ∈ c.states) :
    (c.ways accept).Derives w ↔ c.Run c.start [] w accept [] := by
  rw [Derives, start_ways]
  exact ⟨hc.run_of_yields hstart haccept, fun h => hc.unwinds_of_run haccept hstart h⟩

end Suited

theorem wayGrammar_eq (haccept : c.accept.toList = [accept])
    (h : ∀ m ∈ c.moves, m.isCanonical = true) : c.wayGrammar = .ok (c.ways accept) := by
  have hfind : c.moves.toList.find? (fun m => !m.isCanonical) = none := by
    apply List.find?_eq_none.2
    intro m hm
    simp [h m (ExtTreeSet.mem_toList.1 hm)]
  rw [wayGrammar, haccept]
  simp only [hfind]
  rfl

end FormalLanguages.Pushdown
