import FormalLanguages.Proofs.Fresh
import FormalLanguages.Proofs.Pushdown.Runs
import FormalLanguages.Proofs.Sets
import FormalLanguages.Pushdown.Canonical

/-!
# The canonical form accepts the same words

The states of the canonical form are numbered in the order in which they are drawn, all of them
after the states of the automaton. A run of the automaton is a run of the canonical form above the
floor. Conversely, each point of a run of the canonical form tells what the automaton has done by
then.
-/

namespace FormalLanguages.Pushdown

open Std Fresh

/-! ### The new states -/

structure Layout where
  start : State
  /-- The state between the two steps of a move. -/
  between : Move → State
  drain : State
  enter : State
  accept : State

def Move.steps (m : Move) (q : State) : List Move := if m.isCanonical then [m] else m.halves q

/-- The states between the steps of some moves are different, and they lie in a range. -/
structure Between (ms : List Move) (between : Move → State) (low high : State) : Prop where
  low_le : ∀ m ∈ ms, m.isCanonical = false → low ≤ between m
  lt_high : ∀ m ∈ ms, m.isCanonical = false → between m < high
  injective : ∀ m ∈ ms, ∀ m' ∈ ms, m.isCanonical = false → m'.isCanonical = false →
    between m = between m' → m = m'

variable {p c : Pushdown} {l : Layout} {m : Move} {s s' : Supply} {q r : State}
  {t : List StackSymbol} {u w : List String}

theorem splitMove_eq_ok {ms : List Move} (h : splitMove m s = .ok (ms, s')) :
    (m.isCanonical = true ∧ ms = [m] ∧ s'.next = s.next) ∨
      m.isCanonical = false ∧ ms = m.halves s.next ∧ s'.next = s.next + 1 := by
  unfold splitMove at h
  split at h
  · next hc =>
    obtain ⟨rfl, rfl⟩ := pure_eq_ok_iff.1 h
    exact .inl ⟨hc, rfl, rfl⟩
  · next hc =>
    obtain ⟨q, s₁, hfresh, hpure⟩ := bind_eq_ok_iff.1 h
    obtain ⟨rfl, hnext, -⟩ := fresh_eq_ok_iff.1 hfresh
    obtain ⟨rfl, rfl⟩ := pure_eq_ok_iff.1 hpure
    exact .inr ⟨Bool.eq_false_iff.2 hc, rfl, hnext⟩

theorem Between.cons_canonical {ms : List Move} {between : Move → State} {low high : State}
    (h : Between ms between low high) (hm : m.isCanonical = true) :
    Between (m :: ms) between low high := by
  have hmem : ∀ m' ∈ m :: ms, m'.isCanonical = false → m' ∈ ms := by
    intro m' hm' hc
    rcases List.mem_cons.1 hm' with rfl | hm'
    · rw [hm] at hc
      cases hc
    · exact hm'
  constructor
  · exact fun m' hm' hc => h.low_le m' (hmem m' hm' hc) hc
  · exact fun m' hm' hc => h.lt_high m' (hmem m' hm' hc) hc
  · exact fun m₁ h₁ m₂ h₂ hc₁ hc₂ => h.injective m₁ (hmem m₁ h₁ hc₁) m₂ (hmem m₂ h₂ hc₂) hc₁ hc₂

theorem Between.cons_split {ms : List Move} {between : Move → State} {low high : State}
    (h : Between ms between (low + 1) high) (hm : m ∉ ms) (hlt : low < high) :
    Between (m :: ms) (fun m' => if m' = m then low else between m') low high := by
  have hne : ∀ m' ∈ ms, m' ≠ m := fun m' hm' heq => hm (heq ▸ hm')
  have hlow : ∀ m' ∈ ms, m'.isCanonical = false → low < between m' := h.low_le
  constructor
  · intro m' hm' hc
    rcases List.mem_cons.1 hm' with rfl | hm'
    · simp
    · rw [if_neg (hne m' hm')]
      exact Nat.le_of_lt (hlow m' hm' hc)
  · intro m' hm' hc
    rcases List.mem_cons.1 hm' with rfl | hm'
    · simpa using hlt
    · rw [if_neg (hne m' hm')]
      exact h.lt_high m' hm' hc
  · intro m₁ h₁ m₂ h₂ hc₁ hc₂ heq
    rcases List.mem_cons.1 h₁ with e₁ | h₁ <;> rcases List.mem_cons.1 h₂ with e₂ | h₂
    · rw [e₁, e₂]
    · rw [if_pos e₁, if_neg (hne m₂ h₂)] at heq
      exact absurd heq (Nat.ne_of_lt (hlow m₂ h₂ hc₂))
    · rw [if_pos e₂, if_neg (hne m₁ h₁)] at heq
      exact absurd heq.symm (Nat.ne_of_lt (hlow m₁ h₁ hc₁))
    · rw [if_neg (hne m₁ h₁), if_neg (hne m₂ h₂)] at heq
      exact h.injective m₁ h₁ m₂ h₂ hc₁ hc₂ heq

theorem exists_between {ms : List Move} {mss : List (List Move)} (hms : ms.Nodup)
    (h : ms.mapM splitMove s = .ok (mss, s')) : s.next ≤ s'.next ∧
      ∃ between, Between ms between s.next s'.next ∧
        mss = ms.map fun m => m.steps (between m) := by
  induction ms generalizing mss s with
  | nil =>
    obtain ⟨rfl, rfl⟩ := pure_eq_ok_iff.1 h
    refine ⟨Nat.le_refl _, fun _ => 0, ⟨?_, ?_, ?_⟩, rfl⟩ <;> simp
  | cons m ms ih =>
    obtain ⟨hm, hms⟩ := List.nodup_cons.1 hms
    rw [List.mapM_cons] at h
    obtain ⟨b, s₁, hsplit, h⟩ := bind_eq_ok_iff.1 h
    obtain ⟨bs, s₂, hrest, h⟩ := bind_eq_ok_iff.1 h
    obtain ⟨rfl, rfl⟩ := pure_eq_ok_iff.1 h
    obtain ⟨hle, between, hbetween, rfl⟩ := ih hms hrest
    rcases splitMove_eq_ok hsplit with ⟨hc, rfl, hnext⟩ | ⟨hc, rfl, hnext⟩
    · rw [hnext] at hle hbetween
      refine ⟨hle, between, hbetween.cons_canonical hc, ?_⟩
      rw [List.map_cons, Move.steps, if_pos hc]
    · rw [hnext] at hle hbetween
      refine ⟨Nat.le_of_succ_le hle, _, hbetween.cons_split hm hle, ?_⟩
      have hsteps : m.steps s.next = m.halves s.next := if_neg (Bool.not_eq_true _ ▸ hc)
      have hrest : (ms.map fun m' => m'.steps (if m' = m then s.next else between m')) =
          ms.map fun m' => m'.steps (between m') :=
        List.map_congr_left fun m' hm' => by rw [if_neg (ne_of_mem_of_not_mem hm' hm)]
      rw [List.map_cons, if_pos rfl, hsteps, hrest]

/-- The canonical form has the states, the moves and the accept state that belong to a layout. -/
structure Form (p c : Pushdown) (l : Layout) : Prop where
  start_eq : c.start = l.start
  accept_eq : c.accept.toList = [l.accept]
  input_eq : c.input = p.input
  mem_moves_iff : ∀ m, m ∈ c.moves ↔ m = ⟨l.start, none, none, p.start, some .floor⟩ ∨
    (∃ m' ∈ p.moves, m ∈ m'.steps (l.between m')) ∨ m ∈ p.drainMoves l.drain l.enter l.accept
  start_mem : l.start ∈ c.states
  accept_mem : l.accept ∈ c.states
  source_mem : ∀ m ∈ c.moves, m.source ∈ c.states
  target_mem : ∀ m ∈ c.moves, m.target ∈ c.states
  lt_start : ∀ q ∈ p.states, q < l.start
  start_lt_drain : l.start < l.drain
  between : Between p.moves.toList l.between (l.start + 1) l.drain
  drain_lt_enter : l.drain < l.enter
  enter_lt_accept : l.enter < l.accept

theorem lt_of_reserve {a : Unit} (h : p.reserve s = .ok (a, s')) : ∀ q ∈ p.states, q < s'.next := by
  intro q hq
  cases hlast : StateSet.greatest? p.states with
  | some last =>
    rw [reserve, hlast] at h
    have hle := StateSet.le_greatest hq hlast
    have hnext := (reservePast_eq_ok_iff.1 h).2
    lia
  | none =>
    rw [StateSet.greatest?, List.getLast?_eq_none_iff] at hlast
    have hmem := ExtTreeSet.mem_toList.2 hq
    rw [hlast] at hmem
    cases hmem

theorem next_le_of_reserve {a : Unit} (h : p.reserve s = .ok (a, s')) : s.next ≤ s'.next := by
  cases hlast : StateSet.greatest? p.states with
  | some last =>
    rw [reserve, hlast] at h
    have hnext := (reservePast_eq_ok_iff.1 h).2
    lia
  | none =>
    rw [reserve, hlast] at h
    exact Nat.le_of_eq (congrArg Supply.next (pure_eq_ok_iff.1 h).2)

theorem Move.mem_steps_iff {m' : Move} : m' ∈ m.steps q ↔ m.isCanonical = true ∧ m' = m ∨
    m.isCanonical = false ∧
      (m' = { m with target := q, push := m.bridge } ∨
        m' = ⟨q, none, m.bridge, m.target, m.push⟩) := by
  cases hc : m.isCanonical <;> simp [steps, halves, hc]

theorem Move.read_of_steps {m' : Move} (h : m' ∈ m.steps q) {t : String}
    (ht : m'.read = some t) : m.read = some t := by
  rcases mem_steps_iff.1 h with ⟨-, rfl⟩ | ⟨-, rfl | rfl⟩
  · exact ht
  · exact ht
  · cases ht

theorem mem_drainMoves_iff {drain enter accept : State} :
    m ∈ p.drainMoves drain enter accept ↔
      (∃ q ∈ p.accept, m = ⟨q, none, none, enter, some .scratch⟩) ∨
      m = ⟨enter, none, some .scratch, drain, none⟩ ∨
      (∃ name ∈ p.stack, m = ⟨drain, none, some (.named name), drain, none⟩) ∨
      m = ⟨drain, none, some .floor, accept, none⟩ := by
  simp only [drainMoves, List.mem_append, List.mem_map, List.mem_cons, ExtTreeSet.mem_toList,
    List.not_mem_nil, or_false, or_assoc, eq_comm]

theorem read_of_drainMoves {drain enter accept : State} (h : m ∈ p.drainMoves drain enter accept) :
    m.read = none := by
  rcases mem_drainMoves_iff.1 h with ⟨q, -, rfl⟩ | rfl | ⟨name, -, rfl⟩ | rfl <;> rfl

section Framed

variable {start drain enter accept : State} {steps : List Move}

theorem start_framed : (p.framed start drain enter accept steps).start = start := start_addMoves

theorem mem_accept_framed : q ∈ (p.framed start drain enter accept steps).accept ↔ q = accept := by
  show q ∈ (addMoves _ _).accept.insert accept ↔ _
  rw [mem_insert_iff, accept_addMoves]
  exact or_iff_left ExtTreeSet.not_mem_empty

theorem mem_input_framed {t : String} : t ∈ (p.framed start drain enter accept steps).input ↔
    (∃ m ∈ steps, m.read = some t) ∨ t ∈ p.input := by
  show t ∈ (addMoves _ _).input ↔ _
  have hdrain : ∀ m ∈ p.drainMoves drain enter accept, m.read ≠ some t := by
    intro m hm
    rw [read_of_drainMoves hm]
    nofun
  rw [mem_input_addMoves, mem_input_addMove]
  simp only [List.mem_append, reduceCtorEq, false_or]
  constructor
  · rintro (⟨m, hm | hm, ht⟩ | ht)
    · exact .inl ⟨m, hm, ht⟩
    · exact absurd ht (hdrain m hm)
    · exact .inr ht
  · rintro (⟨m, hm, ht⟩ | ht)
    · exact .inl ⟨m, .inl hm, ht⟩
    · exact .inr ht

theorem mem_moves_framed : m ∈ (p.framed start drain enter accept steps).moves ↔
    m = ⟨start, none, none, p.start, some .floor⟩ ∨ m ∈ steps ∨
      m ∈ p.drainMoves drain enter accept := by
  show m ∈ (addMoves _ _).moves ↔ _
  rw [mem_moves_addMoves, mem_moves_addMove, List.mem_append]
  simp only [ofStart, ExtTreeSet.not_mem_empty, or_false]
  exact or_comm

theorem mem_states_framed : q ∈ (p.framed start drain enter accept steps).states ↔
    q = accept ∨ (∃ m ∈ (p.framed start drain enter accept steps).moves,
      q = m.source ∨ q = m.target) ∨ q = start ∨ q ∈ p.states := by
  show q ∈ (addMoves _ _).states.insert accept ↔ _
  rw [mem_insert_iff, mem_states_addMoves, mem_states_addMove, mem_insert_iff]
  simp only [mem_moves_framed, exists_eq_or_imp, List.mem_append]
  grind

end Framed

/-- The order in which the numbers of a canonical form are drawn: one for the start, those of the
moves that are split, and three for the way out. -/
theorem canonical_eq_ok (h : p.canonical s = .ok (c, s')) : ∃ s₀ s₁ mss s₂,
    p.reserve s = .ok ((), s₀) ∧ s₁.next = s₀.next + 1 ∧
      p.moves.toList.mapM splitMove s₁ = .ok (mss, s₂) ∧ s₂.next + 2 < State.last ∧
        c = p.framed s₀.next s₂.next (s₂.next + 1) (s₂.next + 2) mss.flatten := by
  obtain ⟨_, s₀, hreserve, h⟩ := bind_eq_ok_iff.1 h
  obtain ⟨start, s₁, hstart, h⟩ := bind_eq_ok_iff.1 h
  obtain ⟨mss, s₂, hsplit, h⟩ := bind_eq_ok_iff.1 h
  obtain ⟨drain, s₃, hdrain, h⟩ := bind_eq_ok_iff.1 h
  obtain ⟨enter, s₄, henter, h⟩ := bind_eq_ok_iff.1 h
  obtain ⟨accept, s₅, haccept, h⟩ := bind_eq_ok_iff.1 h
  obtain ⟨rfl, -⟩ := pure_eq_ok_iff.1 h
  obtain ⟨rfl, hnext₁, -⟩ := fresh_eq_ok_iff.1 hstart
  obtain ⟨rfl, hnext₃, -⟩ := fresh_eq_ok_iff.1 hdrain
  obtain ⟨rfl, hnext₄, -⟩ := fresh_eq_ok_iff.1 henter
  obtain ⟨rfl, -, hlast⟩ := fresh_eq_ok_iff.1 haccept
  rw [hnext₃] at hnext₄
  rw [hnext₄] at hlast
  refine ⟨s₀, s₁, mss, s₂, hreserve, hnext₁, hsplit, hlast, ?_⟩
  rw [hnext₄, hnext₃]

/-- The canonical form from any supply. Its states are the old ones and those that are drawn. -/
theorem exists_form_of_supply (hinput : ∀ t, t ∈ p.input ↔ ∃ m ∈ p.moves, m.read = some t)
    (h : p.canonical s = .ok (c, s')) :
    ∃ l, Form p c l ∧ s.next ≤ l.start ∧
      ∀ q, q ∈ c.states ↔ q = l.accept ∨ (∃ m ∈ c.moves, q = m.source ∨ q = m.target) ∨
        q = l.start ∨ q ∈ p.states := by
  obtain ⟨s₀, s₁, mss, s₂, hreserve, hstart, hsplit, -, rfl⟩ := canonical_eq_ok h
  obtain ⟨hle, between, hbetween, rfl⟩ := exists_between (nodup_toList _) hsplit
  rw [hstart] at hle hbetween
  refine ⟨⟨s₀.next, between, s₂.next, s₂.next + 1, s₂.next + 2⟩, ?_, next_le_of_reserve hreserve,
    fun q => mem_states_framed⟩
  constructor
  case start_eq => exact start_framed
  case accept_eq => exact toList_eq_singleton fun q => mem_accept_framed
  case input_eq =>
    apply ExtTreeSet.ext_mem
    intro t
    rw [mem_input_framed]
    apply or_iff_right_of_imp
    rintro ⟨m, hm, ht⟩
    obtain ⟨steps, hsteps, hm⟩ := List.mem_flatten.1 hm
    obtain ⟨m', hm', rfl⟩ := List.mem_map.1 hsteps
    exact (hinput t).2 ⟨m', ExtTreeSet.mem_toList.1 hm', Move.read_of_steps hm ht⟩
  case mem_moves_iff =>
    intro m
    have hsteps : m ∈ (p.moves.toList.map fun m => m.steps (between m)).flatten ↔
        ∃ m' ∈ p.moves, m ∈ m'.steps (between m') := by
      simp only [List.mem_flatten, List.mem_map, exists_exists_and_eq_and, ExtTreeSet.mem_toList]
    rw [mem_moves_framed, hsteps]
  case start_mem => exact mem_states_framed.2 (.inr (.inr (.inl rfl)))
  case accept_mem => exact mem_states_framed.2 (.inl rfl)
  case source_mem => exact fun m hm => mem_states_framed.2 (.inr (.inl ⟨m, hm, .inl rfl⟩))
  case target_mem => exact fun m hm => mem_states_framed.2 (.inr (.inl ⟨m, hm, .inr rfl⟩))
  case lt_start => exact lt_of_reserve hreserve
  case start_lt_drain => exact hle
  case between => exact hbetween
  case drain_lt_enter => exact Nat.lt_succ_self _
  case enter_lt_accept => exact Nat.lt_succ_self _

theorem exists_form (hp : p.WellFormed) (h : Supply.run {} p.canonical = .ok c) :
    ∃ l, Form p c l := by
  obtain ⟨s', h⟩ := Supply.run_eq_ok_iff.1 h
  exact (exists_form_of_supply hp.mem_input_iff h).imp fun l hl => hl.1

/-! ### From the automaton to its canonical form -/

namespace Form

variable {s : List StackSymbol}

theorem step_mem (hf : Form p c l) {m' : Move} (hm : m ∈ p.moves)
    (hm' : m' ∈ m.steps (l.between m)) : m' ∈ c.moves :=
  (hf.mem_moves_iff m').2 (.inr (.inl ⟨m, hm, hm'⟩))

theorem drainMove_mem (hf : Form p c l) (hm : m ∈ p.drainMoves l.drain l.enter l.accept) :
    m ∈ c.moves :=
  (hf.mem_moves_iff m).2 (.inr (.inr hm))

/-- A move is taken in its steps. -/
theorem run_move (hf : Form p c l) (hm : m ∈ p.moves) (s : List StackSymbol) :
    c.Run m.source (m.pop.toList ++ s) m.read.toList m.target (m.push.toList ++ s) := by
  cases hc : m.isCanonical with
  | true => exact Run.single (hf.step_mem hm (Move.mem_steps_iff.2 (.inl ⟨hc, rfl⟩))) s
  | false =>
    have hfirst := hf.step_mem hm (Move.mem_steps_iff.2 (.inr ⟨hc, .inl rfl⟩))
    have hsecond := hf.step_mem hm (Move.mem_steps_iff.2 (.inr ⟨hc, .inr rfl⟩))
    have hrun := (Run.single hfirst s).trans (Run.single hsecond s)
    rwa [Option.toList_none, List.append_nil] at hrun

theorem run (hf : Form p c l) (h : p.Run q s w r t) : c.Run q s w r t := by
  induction h with
  | refl => exact .refl ..
  | step hm _ ih => exact (hf.run_move hm _).trans ih

/-- All that is left on the stack is popped, and the floor last. -/
theorem run_drain (hf : Form p c l) (hs : ∀ x ∈ s, ∃ name ∈ p.stack, x = .named name) :
    c.Run l.drain (s ++ [.floor]) [] l.accept [] := by
  induction s with
  | nil =>
    apply Run.single (m := ⟨l.drain, none, some .floor, l.accept, none⟩)
    exact hf.drainMove_mem (mem_drainMoves_iff.2 (.inr (.inr (.inr rfl))))
  | cons x s ih =>
    obtain ⟨name, hname, rfl⟩ := hs x (List.mem_cons_self ..)
    have hmove : ⟨l.drain, none, some (.named name), l.drain, none⟩ ∈ c.moves :=
      hf.drainMove_mem (mem_drainMoves_iff.2 (.inr (.inr (.inl ⟨name, hname, rfl⟩))))
    exact (Run.single hmove (s ++ [.floor])).trans (ih fun x hx => hs x (List.mem_cons_of_mem _ hx))

theorem run_first (hf : Form p c l) : c.Run l.start [] [] p.start [.floor] :=
  Run.single ((hf.mem_moves_iff ⟨l.start, none, none, p.start, some .floor⟩).2 (.inl rfl)) []

/-- From the accept states of the automaton the canonical form comes to its end, with what is on the
stack as well as without it. -/
theorem run_last (hf : Form p c l) (hq : q ∈ p.accept)
    (hs : ∀ x ∈ s, ∃ name ∈ p.stack, x = .named name) :
    c.Run q (s ++ [.floor]) [] l.accept [] := by
  have henter : ⟨q, none, none, l.enter, some .scratch⟩ ∈ c.moves :=
    hf.drainMove_mem (mem_drainMoves_iff.2 (.inl ⟨q, hq, rfl⟩))
  have hdrain : ⟨l.enter, none, some .scratch, l.drain, none⟩ ∈ c.moves :=
    hf.drainMove_mem (mem_drainMoves_iff.2 (.inr (.inl rfl)))
  have hway := (Run.single henter (s ++ [.floor])).trans (Run.single hdrain (s ++ [.floor]))
  exact hway.trans (hf.run_drain hs)

theorem run_of_accepts (hf : Form p c l) (hp : p.WellFormed) (hnamed : p.Named)
    (h : p.Accepts w) : c.Run l.start [] w l.accept [] := by
  obtain ⟨q, hq, s, hrun⟩ := h
  have hbegin := hf.run_first.trans ((hf.run hrun).under [.floor])
  have hall := hbegin.trans (hf.run_last hq (hrun.mem_stack hp hnamed))
  simpa using hall

end Form

/-! ### From the canonical form to the automaton -/

theorem Named.pop_ne_floor (hnamed : p.Named) (hm : m ∈ p.moves) : m.pop ≠ some .floor := by
  intro h
  obtain ⟨name, hname⟩ := hnamed m hm _ (.inl h)
  cases hname

theorem Named.push_ne_floor (hnamed : p.Named) (hm : m ∈ p.moves) : m.push ≠ some .floor := by
  intro h
  obtain ⟨name, hname⟩ := hnamed m hm _ (.inr h)
  cases hname

/-- What is popped above the floor, and is not the floor, has been there. -/
theorem pop_above_floor {s : List StackSymbol} {x : Option StackSymbol} (hx : x ≠ some .floor)
    (h : x.toList ++ s = t ++ [.floor]) : ∃ s', s = s' ++ [.floor] ∧ t = x.toList ++ s' := by
  cases x with
  | none => exact ⟨t, h, rfl⟩
  | some x =>
    cases t with
    | nil =>
      obtain ⟨rfl, -⟩ := List.cons_eq_cons.1 h
      exact absurd rfl hx
    | cons y t =>
      obtain ⟨rfl, rfl⟩ := List.cons_eq_cons.1 h
      exact ⟨t, rfl, rfl⟩

/-- What a point of a run of the canonical form, where `w` has been read, tells about the
automaton. -/
inductive Tells (p : Pushdown) (l : Layout) (w : List String) : State → List StackSymbol → Prop
  | start : w = [] → Tells p l w l.start []
  | run {q : State} {s : List StackSymbol} : p.Run p.start [] w q s →
    Tells p l w q (s ++ [.floor])
  | between {m : Move} {u : List String} {s : List StackSymbol} : m ∈ p.moves →
    m.isCanonical = false → p.Run p.start [] u m.source (m.pop.toList ++ s) →
    w = u ++ m.read.toList →
    Tells p l w (l.between m) (m.bridge.toList ++ (s ++ [.floor]))
  | ending {q : State} {s : List StackSymbol} : p.Accepts w → l.drain ≤ q → Tells p l w q s

/-- The states of the automaton come first. -/
theorem Form.lt_start_of_run {s : List StackSymbol} (hf : Form p c l) (hp : p.WellFormed)
    (h : p.Run p.start [] w q s) : q < l.start :=
  hf.lt_start q (h.state_mem hp hp.start_mem)

/-- The states between two steps come after the start and before the drain. -/
theorem Form.between_range (hf : Form p c l) (hm : m ∈ p.moves) (hc : m.isCanonical = false) :
    l.start < l.between m ∧ l.between m < l.drain :=
  have hm := ExtTreeSet.mem_toList.2 hm
  ⟨hf.between.low_le m hm hc, hf.between.lt_high m hm hc⟩

namespace Tells

variable {s : List StackSymbol}

section Places

variable (hf : Form p c l) (h : Tells p l w q s)
include hf h

/-- At a state of the automaton, the automaton has come there too. -/
theorem at_state (hq : q ∈ p.states) : ∃ t, s = t ++ [.floor] ∧ p.Run p.start [] w q t := by
  have hstart := hf.lt_start q hq
  cases h with
  | start _ => lia
  | run hrun => exact ⟨_, rfl, hrun⟩
  | between hm hc _ _ =>
    have hrange := hf.between_range hm hc
    lia
  | ending _ hle =>
    have hlt := hf.start_lt_drain
    lia

variable (hp : p.WellFormed)
include hp

theorem at_start (hq : q = l.start) : w = [] ∧ s = [] := by
  cases h with
  | start hw => exact ⟨hw, rfl⟩
  | run hrun =>
    have hlt := hf.lt_start_of_run hp hrun
    lia
  | between hm hc _ _ =>
    have hrange := hf.between_range hm hc
    lia
  | ending _ hle =>
    have hlt := hf.start_lt_drain
    lia

/-- Between two steps, the automaton can take the move. -/
theorem at_between (hm : m ∈ p.moves) (hc : m.isCanonical = false) (hq : q = l.between m) :
    ∃ u t, s = m.bridge.toList ++ (t ++ [.floor]) ∧
      p.Run p.start [] u m.source (m.pop.toList ++ t) ∧ w = u ++ m.read.toList := by
  have hrange := hf.between_range hm hc
  cases h with
  | start _ => lia
  | run hrun =>
    have hlt := hf.lt_start_of_run hp hrun
    lia
  | @between m' u t hm' hc' hrun hw =>
    have hsame : m' = m := hf.between.injective m' (ExtTreeSet.mem_toList.2 hm') m
      (ExtTreeSet.mem_toList.2 hm) hc' hc hq
    subst hsame
    exact ⟨u, t, rfl, hrun, hw⟩
  | ending _ hle => lia

theorem at_ending (hq : l.drain ≤ q) : p.Accepts w := by
  have hlt := hf.start_lt_drain
  cases h with
  | start _ => lia
  | run hrun =>
    have hlt := hf.lt_start_of_run hp hrun
    lia
  | between hm hc _ _ =>
    have hrange := hf.between_range hm hc
    lia
  | ending hw _ => exact hw

end Places

/-- Each step of the canonical form keeps what is known. -/
theorem step (hf : Form p c l) (hp : p.WellFormed) (hnamed : p.Named) (hm : m ∈ c.moves)
    (h : Tells p l w m.source (m.pop.toList ++ s)) :
    Tells p l (w ++ m.read.toList) m.target (m.push.toList ++ s) := by
  rcases (hf.mem_moves_iff m).1 hm with rfl | ⟨m', hm', hstep⟩ | hdrain
  · obtain ⟨rfl, hs⟩ := h.at_start hf hp rfl
    obtain rfl : s = [] := hs
    exact .run (.refl ..)
  · rcases Move.mem_steps_iff.1 hstep with ⟨-, rfl⟩ | ⟨hc, rfl | rfl⟩
    · obtain ⟨t, hs, hrun⟩ := h.at_state hf (hp.source_mem m hm')
      obtain ⟨s, rfl, rfl⟩ := pop_above_floor (hnamed.pop_ne_floor hm') hs
      rw [← List.append_assoc]
      exact .run (hrun.trans (Run.single hm' s))
    · obtain ⟨t, hs, hrun⟩ := h.at_state hf (hp.source_mem m' hm')
      obtain ⟨s, rfl, rfl⟩ := pop_above_floor (hnamed.pop_ne_floor hm') hs
      exact .between hm' hc hrun rfl
    · obtain ⟨u, t, hs, hrun, rfl⟩ := h.at_between hf hp hm' hc rfl
      rw [List.append_cancel_left hs, ← List.append_assoc]
      rw [Option.toList_none, List.append_nil]
      exact .run (hrun.trans (Run.single hm' t))
  · rw [read_of_drainMoves hdrain, Option.toList_none, List.append_nil]
    have henter := hf.drain_lt_enter
    have haccept := hf.enter_lt_accept
    rcases mem_drainMoves_iff.1 hdrain with ⟨q, hq, rfl⟩ | rfl | ⟨name, -, rfl⟩ | rfl
    · obtain ⟨t, -, hrun⟩ := h.at_state hf (hp.accept_mem q hq)
      exact .ending ⟨q, hq, t, hrun⟩ (Nat.le_of_lt henter)
    · exact .ending (h.at_ending hf hp (Nat.le_of_lt henter)) (Nat.le_refl _)
    · exact .ending (h.at_ending hf hp (Nat.le_refl _)) (Nat.le_refl _)
    · exact .ending (h.at_ending hf hp (Nat.le_refl _)) (by lia)

end Tells

/-- The canonical form, started without a stack, comes to its end without a stack when it has read
a word that the automaton accepts. -/
theorem Form.run_iff_accepts (hf : Form p c l) (hp : p.WellFormed) (hnamed : p.Named) :
    c.Run l.start [] w l.accept [] ↔ p.Accepts w := by
  constructor
  · intro h
    have htells : Tells p l ([] ++ w) l.accept [] :=
      h.induction (fun m hm u s htells => htells.step hf hp hnamed hm) (.start rfl)
    have hle : l.drain ≤ l.accept := by
      have henter := hf.drain_lt_enter
      have haccept := hf.enter_lt_accept
      lia
    exact htells.at_ending hf hp hle
  · exact hf.run_of_accepts hp hnamed

/-- Each move of the canonical form pushes one symbol or pops one. -/
theorem Form.isCanonical (hf : Form p c l) (hm : m ∈ c.moves) : m.isCanonical = true := by
  rcases (hf.mem_moves_iff m).1 hm with rfl | ⟨m', -, hstep⟩ | hdrain
  · rfl
  · rcases Move.mem_steps_iff.1 hstep with ⟨hc, rfl⟩ | ⟨hc, rfl | rfl⟩
    · exact hc
    · cases hpop : m'.pop <;> simp [Move.isCanonical, Move.bridge, hpop]
    · cases hpop : m'.pop <;> cases hpush : m'.push <;>
        simp_all [Move.isCanonical, Move.bridge]
  · rcases mem_drainMoves_iff.1 hdrain with ⟨q, -, rfl⟩ | rfl | ⟨name, -, rfl⟩ | rfl <;> rfl

end FormalLanguages.Pushdown
