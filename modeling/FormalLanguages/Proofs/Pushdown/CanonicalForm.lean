import FormalLanguages.Proofs.Pushdown.Room

/-!
# The canonical form from any supply

The new states of a canonical form are those that were drawn for it. In a run from its start, the
floor lies under all other symbols until the accept state is entered, and there it is popped from a
stack that holds nothing else.
-/

namespace FormalLanguages.Pushdown

open Std

variable {p c : Pushdown} {l : Layout} {m : Move} {q : State} {s t : List StackSymbol}
  {w : List String}

/-! ### The new states -/

def Layout.added (l : Layout) (p : Pushdown) : List State :=
  l.start :: (p.moves.toList.filter (!·.isCanonical)).map l.between ++ [l.drain, l.enter, l.accept]

theorem Layout.mem_added_iff : q ∈ l.added p ↔ q = l.start ∨
    (∃ m ∈ p.moves, m.isCanonical = false ∧ l.between m = q) ∨ q = l.drain ∨ q = l.enter ∨
      q = l.accept := by
  simp only [added, List.cons_append, List.mem_cons, List.mem_append, List.mem_map,
    List.mem_filter, ExtTreeSet.mem_toList, Bool.not_eq_true', and_assoc, List.not_mem_nil,
    or_false]

namespace Form

variable (hf : Form p c l)
include hf

theorem start_lt_enter : l.start < l.enter := Nat.lt_trans hf.start_lt_drain hf.drain_lt_enter

theorem drain_lt_accept : l.drain < l.accept := Nat.lt_trans hf.drain_lt_enter hf.enter_lt_accept

theorem start_lt_accept : l.start < l.accept := Nat.lt_trans hf.start_lt_enter hf.enter_lt_accept

theorem le_of_mem_added (hq : q ∈ l.added p) : l.start ≤ q := by
  rcases Layout.mem_added_iff.1 hq with rfl | ⟨m, hm, hc, rfl⟩ | rfl | rfl | rfl
  · exact Nat.le_refl _
  · exact Nat.le_of_lt (hf.between_range hm hc).1
  · exact Nat.le_of_lt hf.start_lt_drain
  · exact Nat.le_of_lt hf.start_lt_enter
  · exact Nat.le_of_lt hf.start_lt_accept

theorem nodup_added : (l.added p).Nodup := by
  have hdrain := hf.start_lt_drain
  have henter := hf.drain_lt_enter
  have haccept := hf.enter_lt_accept
  have hbetween : ∀ q ∈ (p.moves.toList.filter (!·.isCanonical)).map l.between,
      l.start < q ∧ q < l.drain := by
    intro q hq
    obtain ⟨m, hm, rfl⟩ := List.mem_map.1 hq
    obtain ⟨hm, hc⟩ := List.mem_filter.1 hm
    exact hf.between_range (ExtTreeSet.mem_toList.1 hm) (by simpa using hc)
  have hmap : ((p.moves.toList.filter (!·.isCanonical)).map l.between).Nodup := by
    apply List.Nodup.map_on _ ((nodup_toList p.moves).filter _)
    intro m hm m' hm' heq
    obtain ⟨hm, hc⟩ := List.mem_filter.1 hm
    obtain ⟨hm', hc'⟩ := List.mem_filter.1 hm'
    exact hf.between.injective m hm m' hm' (by simpa using hc) (by simpa using hc') heq
  rw [Layout.added, List.cons_append, List.nodup_cons, List.nodup_append]
  refine ⟨?_, hmap, ?_, ?_⟩
  · intro h
    rcases List.mem_append.1 h with h | h
    · exact Nat.lt_irrefl _ (hbetween _ h).1
    · simp only [List.mem_cons, List.not_mem_nil, or_false] at h
      lia
  · simp only [List.nodup_cons, List.mem_cons, List.not_mem_nil, or_false, not_false_eq_true,
      List.nodup_nil, and_true]
    lia
  · intro q hq q' hq'
    have hlt := (hbetween q hq).2
    simp only [List.mem_cons, List.not_mem_nil, or_false] at hq'
    lia

/-- A new state has none of the old numbers. -/
theorem not_mem_of_mem_added (hq : q ∈ l.added p) : q ∉ p.states := fun h =>
  Nat.lt_irrefl _ (Nat.lt_of_lt_of_le (hf.lt_start q h) (hf.le_of_mem_added hq))

theorem source_target_of_mem (hp : p.WellFormed) (hm : m ∈ c.moves)
    (hq : q = m.source ∨ q = m.target) : q ∈ p.states ∨ q ∈ l.added p := by
  rw [Layout.mem_added_iff]
  rcases (hf.mem_moves_iff m).1 hm with rfl | ⟨m', hm', hstep⟩ | hdrain
  · rcases hq with rfl | rfl
    · exact .inr (.inl rfl)
    · exact .inl hp.start_mem
  · have hsource := hp.source_mem m' hm'
    have htarget := hp.target_mem m' hm'
    rcases Move.mem_steps_iff.1 hstep with ⟨-, rfl⟩ | ⟨hc, rfl | rfl⟩
    · rcases hq with rfl | rfl
      · exact .inl hsource
      · exact .inl htarget
    · rcases hq with rfl | rfl
      · exact .inl hsource
      · exact .inr (.inr (.inl ⟨m', hm', hc, rfl⟩))
    · rcases hq with rfl | rfl
      · exact .inr (.inr (.inl ⟨m', hm', hc, rfl⟩))
      · exact .inl htarget
  · rcases mem_drainMoves_iff.1 hdrain with ⟨r, hr, rfl⟩ | rfl | ⟨name, -, rfl⟩ | rfl
    · have hsource := hp.accept_mem r hr
      grind
    · grind
    · grind
    · grind

theorem mem_states_of_mem_added (hq : q ∈ l.added p) : q ∈ c.states := by
  have henter : ⟨l.enter, none, some .scratch, l.drain, none⟩ ∈ c.moves :=
    hf.drainMove_mem (mem_drainMoves_iff.2 (.inr (.inl rfl)))
  rcases Layout.mem_added_iff.1 hq with rfl | ⟨m, hm, hc, rfl⟩ | rfl | rfl | rfl
  · exact hf.start_mem
  · exact hf.target_mem _ (hf.step_mem hm (Move.mem_steps_iff.2 (.inr ⟨hc, .inl rfl⟩)))
  · exact hf.target_mem _ henter
  · exact hf.source_mem _ henter
  · exact hf.accept_mem

end Form

/-! ### The floor -/

/-- The state is neither the first nor the last of the canonical form. -/
def Layout.Inside (l : Layout) (q : State) : Prop := q ≠ l.start ∧ q ≠ l.accept

/-- The floor lies under all other symbols, except that the stack is empty at the first state and at
the last. -/
inductive Floored (l : Layout) : State → List StackSymbol → Prop
  | first : Floored l l.start []
  | inside {q : State} {s : List StackSymbol} : l.Inside q → .floor ∉ s →
    Floored l q (s ++ [.floor])
  | last : Floored l l.accept []

namespace Floored

theorem eq_nil_of_first (h : Floored l q s) (hq : q = l.start) : s = [] := by
  cases h with
  | first => rfl
  | inside hinside _ => exact absurd hq hinside.1
  | last => rfl

theorem eq_nil_of_last (h : Floored l q s) (hq : q = l.accept) : s = [] := by
  cases h with
  | first => rfl
  | inside hinside _ => exact absurd hq hinside.2
  | last => rfl

theorem exists_of_inside (h : Floored l q s) (hq : l.Inside q) :
    ∃ t, s = t ++ [.floor] ∧ .floor ∉ t := by
  cases h with
  | first => exact absurd rfl hq.1
  | inside _ hs => exact ⟨_, rfl, hs⟩
  | last => exact absurd rfl hq.2

end Floored

namespace Form

variable (hf : Form p c l)
include hf

theorem inside_of_mem (hq : q ∈ p.states) : l.Inside q := by
  have hlt := hf.lt_start q hq
  exact ⟨Nat.ne_of_lt hlt, Nat.ne_of_lt (Nat.lt_trans hlt hf.start_lt_accept)⟩

theorem inside_between (hm : m ∈ p.moves) (hc : m.isCanonical = false) :
    l.Inside (l.between m) := by
  obtain ⟨hstart, hdrain⟩ := hf.between_range hm hc
  exact ⟨Nat.ne_of_gt hstart, Nat.ne_of_lt (Nat.lt_trans hdrain hf.drain_lt_accept)⟩

theorem inside_drain : l.Inside l.drain :=
  ⟨Nat.ne_of_gt hf.start_lt_drain, Nat.ne_of_lt hf.drain_lt_accept⟩

theorem inside_enter : l.Inside l.enter :=
  ⟨Nat.ne_of_gt hf.start_lt_enter, Nat.ne_of_lt hf.enter_lt_accept⟩

/-- The floor is pushed on the way from the first state and popped on the way to the last, and the
other moves leave it alone. -/
theorem move_cases (hp : p.WellFormed) (hnamed : p.Named) (hm : m ∈ c.moves) :
    m = ⟨l.start, none, none, p.start, some .floor⟩ ∨
      m = ⟨l.drain, none, some .floor, l.accept, none⟩ ∨
      l.Inside m.source ∧ l.Inside m.target ∧ m.pop ≠ some .floor ∧ m.push ≠ some .floor := by
  rcases (hf.mem_moves_iff m).1 hm with rfl | ⟨m', hm', hstep⟩ | hdrain
  · exact .inl rfl
  · have hsource := hf.inside_of_mem (hp.source_mem m' hm')
    have htarget := hf.inside_of_mem (hp.target_mem m' hm')
    have hpop := hnamed.pop_ne_floor hm'
    have hpush := hnamed.push_ne_floor hm'
    have hbridge : m'.bridge ≠ some .floor := by
      unfold Move.bridge
      split <;> simp
    rcases Move.mem_steps_iff.1 hstep with ⟨-, rfl⟩ | ⟨hc, rfl | rfl⟩
    · exact .inr (.inr ⟨hsource, htarget, hpop, hpush⟩)
    · exact .inr (.inr ⟨hsource, hf.inside_between hm' hc, hpop, hbridge⟩)
    · exact .inr (.inr ⟨hf.inside_between hm' hc, htarget, hbridge, hpush⟩)
  · have hdrain' := hf.inside_drain
    have henter := hf.inside_enter
    rcases mem_drainMoves_iff.1 hdrain with ⟨q, hq, rfl⟩ | rfl | ⟨name, -, rfl⟩ | rfl
    · exact .inr (.inr ⟨hf.inside_of_mem (hp.accept_mem q hq), henter, by simp, by simp⟩)
    · exact .inr (.inr ⟨henter, hdrain', by simp, by simp⟩)
    · exact .inr (.inr ⟨hdrain', hdrain', by simp, by simp⟩)
    · exact .inr (.inl rfl)

theorem floored_step (hp : p.WellFormed) (hnamed : p.Named) (hm : m ∈ c.moves)
    (h : Floored l m.source (m.pop.toList ++ s)) : Floored l m.target (m.push.toList ++ s) := by
  rcases hf.move_cases hp hnamed hm with rfl | rfl | ⟨hsource, htarget, hpop, hpush⟩
  · obtain rfl : s = [] := h.eq_nil_of_first rfl
    exact .inside (s := []) (hf.inside_of_mem hp.start_mem) List.not_mem_nil
  · obtain ⟨t, ht, hfloor⟩ := h.exists_of_inside hf.inside_drain
    have hs : s = [] := by
      cases t with
      | nil => exact (List.cons_eq_cons.1 ht).2
      | cons x t =>
        obtain ⟨rfl, -⟩ := List.cons_eq_cons.1 ht
        exact absurd List.mem_cons_self hfloor
    rw [hs]
    exact .last
  · obtain ⟨t, ht, hfloor⟩ := h.exists_of_inside hsource
    obtain ⟨s, rfl, rfl⟩ := pop_above_floor hpop ht
    rw [← List.append_assoc]
    apply Floored.inside htarget
    intro hmem
    rcases List.mem_append.1 hmem with hmem | hmem
    · exact hpush (Option.mem_toList.1 hmem)
    · exact hfloor (List.mem_append_right _ hmem)

theorem floored_of_run (hp : p.WellFormed) (hnamed : p.Named) (h : c.Run l.start [] w q t) :
    Floored l q t :=
  h.induction (P := fun _ q s => Floored l q s) (u := [])
    (fun _ hm _ _ hs => hf.floored_step hp hnamed hm hs) .first

theorem mem_accept_iff : q ∈ c.accept ↔ q = l.accept := by
  rw [← ExtTreeSet.mem_toList, hf.accept_eq, List.mem_singleton]

theorem accepts_of_run (h : c.Run l.start [] w l.accept []) : c.Accepts w :=
  ⟨l.accept, hf.mem_accept_iff.2 rfl, [], hf.start_eq ▸ h⟩

/-- The accept state is entered with an empty stack only. -/
theorem accepts_iff (hp : p.WellFormed) (hnamed : p.Named) : c.Accepts w ↔ p.Accepts w := by
  rw [← hf.run_iff_accepts hp hnamed]
  constructor
  · intro h
    obtain ⟨q, hq, t, hrun⟩ := h
    rw [hf.mem_accept_iff] at hq
    rw [hq, hf.start_eq] at hrun
    rwa [(hf.floored_of_run hp hnamed hrun).eq_nil_of_last rfl] at hrun
  · exact hf.accepts_of_run

end Form

/-- The canonical form of an automaton whose start and accept states are among its states, and whose
stack symbols have names, is made as long as there is room for it. Each of its moves pushes one
symbol or pops one. It has one accept state, which is entered with an empty stack only. It keeps the
old states, and the states that are added are different from one another and from the old ones, and
they were not handed out before. It accepts the words that the automaton accepts. -/
theorem canonical_exact (hp : p.WellFormed) (hnamed : p.Named) (supply : Supply) :
    ((∃ c supply', p.canonical supply = .ok (c, supply')) ↔ p.Room supply) ∧
    ∀ c supply', p.canonical supply = .ok (c, supply') →
      (∀ m ∈ c.moves, m.push.isSome ∧ m.pop = none ∨ m.pop.isSome ∧ m.push = none) ∧
      (∃ accept, c.accept.toList = [accept] ∧
        ∀ w t, c.Run c.start [] w accept t → t = []) ∧
      (∃ l, Form p c l ∧ (l.added p).Nodup ∧
        (∀ q, q ∈ c.states ↔ q ∈ p.states ∨ q ∈ l.added p) ∧
        ∀ q ∈ l.added p, q ∉ p.states ∧ supply.next ≤ q) ∧
      ∀ w, c.Accepts w ↔ p.Accepts w := by
  refine ⟨exists_canonical_iff_room hp supply, ?_⟩
  intro c supply' h
  obtain ⟨l, hf, hnext, hstates⟩ := exists_form_of_supply hp.mem_input_iff h
  refine ⟨?_, ⟨l.accept, hf.accept_eq, ?_⟩, ⟨l, hf, hf.nodup_added, ?_, ?_⟩, ?_⟩
  · intro m hm
    have hcanonical := hf.isCanonical hm
    cases hpop : m.pop <;> cases hpush : m.push <;>
      simp [Move.isCanonical, hpop, hpush] at hcanonical ⊢
  · intro w t hrun
    rw [hf.start_eq] at hrun
    exact (hf.floored_of_run hp hnamed hrun).eq_nil_of_last rfl
  · intro q
    rw [hstates]
    constructor
    · rintro (rfl | ⟨m, hm, hq⟩ | rfl | hq)
      · exact .inr (Layout.mem_added_iff.2 (by simp))
      · exact hf.source_target_of_mem hp hm hq
      · exact .inr (Layout.mem_added_iff.2 (by simp))
      · exact .inl hq
    · rintro (hq | hq)
      · exact .inr (.inr (.inr hq))
      · exact (hstates q).1 (hf.mem_states_of_mem_added hq)
  · intro q hq
    exact ⟨hf.not_mem_of_mem_added hq, Nat.le_trans hnext (hf.le_of_mem_added hq)⟩
  · exact fun w => hf.accepts_iff hp hnamed

def relay : Pushdown :=
  ((((ofStart 0).addMove ⟨0, some "a", none, 0, some (.named "x")⟩).addMove
    ⟨0, some "b", some (.named "x"), 1, some (.named "y")⟩).addMove
      ⟨1, some "c", none, 1, none⟩).addAccept 1

theorem relay_wellFormed : relay.WellFormed :=
  ((((wellFormed_ofStart 0).addMove _).addMove _).addMove _).addAccept 1

theorem mem_moves_relay : m ∈ relay.moves ↔ m = ⟨1, some "c", none, 1, none⟩ ∨
    m = ⟨0, some "b", some (.named "x"), 1, some (.named "y")⟩ ∨
      m = ⟨0, some "a", none, 0, some (.named "x")⟩ := by
  rw [relay, moves_addAccept, mem_moves_addMove, mem_moves_addMove, mem_moves_addMove]
  exact or_congr_right (or_congr_right (or_iff_left ExtTreeSet.not_mem_empty))

theorem relay_named : relay.Named := by
  intro m hm x hx
  rcases mem_moves_relay.1 hm with rfl | rfl | rfl
  · simp at hx
  · rcases hx with hx | hx
    · exact ⟨"x", (Option.some.inj hx).symm⟩
    · exact ⟨"y", (Option.some.inj hx).symm⟩
  · exact ⟨"x", by simpa [eq_comm] using hx⟩

theorem relay_accepts : relay.Accepts ["a", "b", "c"] := by
  refine ⟨1, ExtTreeSet.mem_insert.2 (.inl (by decide)), [.named "y"], ?_⟩
  have ha := Run.single (mem_moves_relay.2 (.inr (.inr rfl))) []
  have hb := Run.single (mem_moves_relay.2 (.inr (.inl rfl))) []
  have hc := Run.single (mem_moves_relay.2 (.inl rfl)) [.named "y"]
  exact ha.trans (hb.trans hc)

/-- From a supply that begins at seven, two moves are taken in two steps. -/
theorem canonical_relay : relay.WellFormed ∧ relay.Named ∧ relay.splitCount = 2 ∧
    ∃ c supply', relay.canonical ⟨7⟩ = .ok (c, supply') ∧ c.Accepts ["a", "b", "c"] ∧
      ∀ q ∈ c.states, q ∈ relay.states ∨ 7 ≤ q := by
  have hcount : relay.splitCount = 2 := by decide +kernel
  obtain ⟨hroom, hexact⟩ := canonical_exact relay_wellFormed relay_named ⟨7⟩
  have hstates : ∀ q ∈ relay.states, q + relay.splitCount + 4 < State.last := by
    intro q hq
    have hle : q ≤ 1 := by
      simp [relay, addAccept, ofStart] at hq
      lia
    rw [hcount, State.last]
    lia
  obtain ⟨c, supply', h⟩ := hroom.2 ⟨by rw [hcount]; decide, hstates⟩
  obtain ⟨-, -, ⟨l, -, -, hmem, hadded⟩, haccepts⟩ := hexact c supply' h
  refine ⟨relay_wellFormed, relay_named, hcount, c, supply', h,
    (haccepts _).2 relay_accepts, ?_⟩
  intro q hq
  exact ((hmem q).1 hq).imp_right fun hq => (hadded q hq).2

/-! ### A start or an accept state that is not among the states -/

def pushing : Move := ⟨0, some "a", none, 0, some (.named "x")⟩

def replacing : Move := ⟨0, some "b", some (.named "x"), 0, some (.named "y")⟩

/-- In state `0` an `a` is put on the stack and a `b` replaces it. The start and the accept state
may be other states, of which nothing is known. -/
def stray (start accept : State) : Pushdown :=
  { ((ofStart 0).addMove pushing).addMove replacing with start, accept := {accept} }

section Stray

variable {r : State}

theorem mem_moves_stray : m ∈ (stray q r).moves ↔ m = replacing ∨ m = pushing := by
  show m ∈ (((ofStart 0).addMove pushing).addMove replacing).moves ↔ _
  rw [mem_moves_addMove, mem_moves_addMove]
  exact or_congr_right (or_iff_left ExtTreeSet.not_mem_empty)

theorem mem_input_stray {t : String} :
    t ∈ (stray q r).input ↔ ∃ m ∈ (stray q r).moves, m.read = some t :=
  (((wellFormed_ofStart 0).addMove pushing).addMove replacing).mem_input_iff t

theorem stray_named : (stray q r).Named := by
  intro m hm x hx
  rcases mem_moves_stray.1 hm with rfl | rfl
  · rcases hx with hx | hx
    · exact ⟨"x", (Option.some.inj hx).symm⟩
    · exact ⟨"y", (Option.some.inj hx).symm⟩
  · exact ⟨"x", by simpa [pushing, eq_comm] using hx⟩

/-- No move leads to another state. -/
theorem stray_not_accepts (hne : q ≠ r) : ¬ (stray q r).Accepts w := by
  rintro ⟨r', hr', s, hrun⟩
  have hr : r' = r := mem_singleton_iff.1 hr'
  have hq : r' = q := by
    apply hrun.induction (P := fun _ q' _ => q' = q) (u := []) _ rfl
    intro m hm _ _ hsource
    rcases mem_moves_stray.1 hm with rfl | rfl <;> exact hsource
  exact hne (hq.symm.trans hr)

/-- The number `2` is drawn for the state between the two steps of the replacing move. -/
theorem exists_form_stray (q r : State) : ∃ c supply',
    (stray q r).canonical {} = .ok (c, supply') ∧
      ∃ l, Form (stray q r) c l ∧ l.between replacing = 2 := by
  have hcanonical : (stray q r).canonical {} =
      .ok ((stray q r).framed 1 3 4 5 (pushing :: replacing.halves 2), ⟨6⟩) := rfl
  refine ⟨_, _, hcanonical, ?_⟩
  obtain ⟨l, hf, -⟩ := exists_form_of_supply (fun _ => mem_input_stray) hcanonical
  refine ⟨l, hf, ?_⟩
  have hstart := hf.start_eq
  rw [start_framed] at hstart
  have haccept := hf.mem_accept_iff.1 (mem_accept_framed.2 rfl)
  have hrange := hf.between_range (mem_moves_stray.2 (.inl rfl)) rfl
  have hdrain := hf.drain_lt_enter
  have henter := hf.enter_lt_accept
  lia

theorem replacing_steps_mem (hf : Form (stray q r) c l) (hbetween : l.between replacing = 2)
    (hm : m ∈ replacing.halves 2) : m ∈ c.moves := by
  have hsteps : replacing.steps 2 = replacing.halves 2 := rfl
  exact hf.step_mem (mem_moves_stray.2 (.inl rfl)) (by rwa [hbetween, hsteps])

/-- The accept state is entered between the two steps. -/
theorem run_stray_accept (hf : Form (stray 0 2) c l) (hbetween : l.between replacing = 2) :
    c.Run l.start [] ["a", "b"] l.accept [] := by
  have hpush := hf.run_move (mem_moves_stray.2 (.inr rfl)) [.floor]
  have hstep := Run.single (replacing_steps_mem hf hbetween List.mem_cons_self) [.floor]
  have hlast := hf.run_last (q := 2) (s := []) (mem_singleton_iff.2 rfl)
    fun x hx => absurd hx List.not_mem_nil
  exact hf.run_first.trans (hpush.trans (hstep.trans hlast))

/-- The second of the two steps is taken from the start. -/
theorem run_stray_start (hf : Form (stray 2 0) c l) (hbetween : l.between replacing = 2) :
    c.Run l.start [] [] l.accept [] := by
  have hmem : ⟨2, none, none, 0, some (.named "y")⟩ ∈ replacing.halves 2 :=
    List.mem_cons_of_mem _ List.mem_cons_self
  have hstep := Run.single (replacing_steps_mem hf hbetween hmem) [.floor]
  have hstack : "y" ∈ (stray 2 0).stack := mem_stack_addMove.2 (.inr (.inl rfl))
  have hlast := hf.run_last (q := 0) (s := [.named "y"]) (mem_singleton_iff.2 rfl)
    fun x hx => ⟨"y", hstack, List.mem_singleton.1 hx⟩
  exact hf.run_first.trans (hstep.trans hlast)

end Stray

/-- The number of an accept state, or of the start, may be drawn for the canonical form if it is not
among the states of the automaton. Then the canonical form accepts what the automaton does not
accept. -/
theorem canonical_stray : (∀ q r, (stray q r).Named) ∧
    (¬ (stray 0 2).Accepts ["a", "b"] ∧
      ∃ c supply', (stray 0 2).canonical {} = .ok (c, supply') ∧ c.Accepts ["a", "b"]) ∧
    ¬ (stray 2 0).Accepts [] ∧
      ∃ c supply', (stray 2 0).canonical {} = .ok (c, supply') ∧ c.Accepts [] := by
  refine ⟨fun q r => stray_named, ?_, ?_⟩
  · obtain ⟨c, supply', hcanonical, l, hf, hbetween⟩ := exists_form_stray 0 2
    exact ⟨stray_not_accepts (by decide), c, supply', hcanonical,
      hf.accepts_of_run (run_stray_accept hf hbetween)⟩
  · obtain ⟨c, supply', hcanonical, l, hf, hbetween⟩ := exists_form_stray 2 0
    exact ⟨stray_not_accepts (by decide), c, supply', hcanonical,
      hf.accepts_of_run (run_stray_start hf hbetween)⟩

end FormalLanguages.Pushdown
