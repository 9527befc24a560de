import FormalLanguages.Pushdown.Basic

/-!
# Runs of pushdown automata

Runs can be put together, and what lies under a stack does not matter to a run. An automaton that
is built move by move has the states and symbols of its moves, and its stacks hold no others.
-/

namespace FormalLanguages.Pushdown

open Std

variable {p : Pushdown} {m : Move} {q q' r : State} {s s' t : List StackSymbol}
  {u w : List String}

/-! ### Automata that are built move by move -/

/-- The states contain the start, the accept states and those of the moves, and the alphabets are
made of the symbols of the moves. -/
structure WellFormed (p : Pushdown) : Prop where
  start_mem : p.start ∈ p.states
  accept_mem : ∀ q ∈ p.accept, q ∈ p.states
  source_mem : ∀ m ∈ p.moves, m.source ∈ p.states
  target_mem : ∀ m ∈ p.moves, m.target ∈ p.states
  mem_input_iff : ∀ t, t ∈ p.input ↔ ∃ m ∈ p.moves, m.read = some t
  mem_stack_iff : ∀ name, name ∈ p.stack ↔
    ∃ m ∈ p.moves, m.pop = some (.named name) ∨ m.push = some (.named name)

theorem wellFormed_ofStart (q : State) : (ofStart q).WellFormed := by
  constructor <;> simp [ofStart]

theorem WellFormed.addMove (hp : p.WellFormed) (m : Move) : (p.addMove m).WellFormed where
  start_mem := mem_states_addMove.2 (.inr (.inr hp.start_mem))
  accept_mem q hq := mem_states_addMove.2 (.inr (.inr (hp.accept_mem q hq)))
  source_mem m' hm' := by
    rw [mem_states_addMove]
    rcases mem_moves_addMove.1 hm' with rfl | hm'
    · exact .inl rfl
    · exact .inr (.inr (hp.source_mem m' hm'))
  target_mem m' hm' := by
    rw [mem_states_addMove]
    rcases mem_moves_addMove.1 hm' with rfl | hm'
    · exact .inr (.inl rfl)
    · exact .inr (.inr (hp.target_mem m' hm'))
  mem_input_iff t := by
    simp only [mem_input_addMove, mem_moves_addMove, hp.mem_input_iff, exists_eq_or_imp]
  mem_stack_iff name := by
    simp only [mem_stack_addMove, mem_moves_addMove, hp.mem_stack_iff, exists_eq_or_imp, or_assoc]

theorem WellFormed.addAccept (hp : p.WellFormed) (q : State) : (p.addAccept q).WellFormed where
  start_mem := ExtTreeSet.mem_insert.2 (.inr hp.start_mem)
  accept_mem q' hq' := by
    apply ExtTreeSet.mem_insert.2
    rcases ExtTreeSet.mem_insert.1 hq' with h | h
    · exact .inl h
    · exact .inr (hp.accept_mem q' h)
  source_mem m hm := ExtTreeSet.mem_insert.2 (.inr (hp.source_mem m hm))
  target_mem m hm := ExtTreeSet.mem_insert.2 (.inr (hp.target_mem m hm))
  mem_input_iff := hp.mem_input_iff
  mem_stack_iff := hp.mem_stack_iff

/-! ### Runs -/

theorem Run.trans (h : p.Run q s u r t) (h' : p.Run r t w q' s') : p.Run q s (u ++ w) q' s' := by
  induction h with
  | refl => exact h'
  | step hm _ ih =>
    rw [List.append_assoc]
    exact .step hm (ih h')

/-- What lies under the stack stays there. -/
theorem Run.under (h : p.Run q s w r t) (x : List StackSymbol) :
    p.Run q (s ++ x) w r (t ++ x) := by
  induction h with
  | refl => exact .refl ..
  | step hm _ ih =>
    rw [List.append_assoc] at ih ⊢
    exact .step hm ih

theorem Run.single (hm : m ∈ p.moves) (s : List StackSymbol) :
    p.Run m.source (m.pop.toList ++ s) m.read.toList m.target (m.push.toList ++ s) := by
  have h := Run.step hm (.refl m.target (m.push.toList ++ s))
  rwa [List.append_nil] at h

/-- What holds at the beginning and is kept by each move holds at the end. -/
theorem Run.induction {P : List String → State → List StackSymbol → Prop}
    (kept : ∀ m ∈ p.moves, ∀ u s, P u m.source (m.pop.toList ++ s) →
      P (u ++ m.read.toList) m.target (m.push.toList ++ s))
    (h : p.Run q s w r t) (hP : P u q s) : P (u ++ w) r t := by
  induction h generalizing u with
  | refl =>
    rw [List.append_nil]
    exact hP
  | step hm _ ih =>
    rw [← List.append_assoc]
    exact ih (kept _ hm u _ hP)

theorem Run.state_mem (hp : p.WellFormed) (h : p.Run q s w r t) (hq : q ∈ p.states) :
    r ∈ p.states :=
  h.induction (P := fun _ q _ => q ∈ p.states) (u := []) (fun m hm _ _ _ => hp.target_mem m hm) hq

theorem Run.mem_input (hp : p.WellFormed) (h : p.Run q s w r t) : ∀ x ∈ w, x ∈ p.input := by
  apply h.induction (P := fun u _ _ => ∀ x ∈ u, x ∈ p.input) (u := [])
  · intro m hm u s hu x hx
    rcases List.mem_append.1 hx with hx | hx
    · exact hu x hx
    · exact (hp.mem_input_iff x).2 ⟨m, hm, Option.mem_toList.1 hx⟩
  · exact fun x hx => absurd hx List.not_mem_nil

def Named (p : Pushdown) : Prop :=
  ∀ m ∈ p.moves, ∀ x, m.pop = some x ∨ m.push = some x → ∃ name, x = .named name

/-- Each symbol on a stack has been pushed. -/
theorem Run.mem_stack (hp : p.WellFormed) (hnamed : p.Named) (h : p.Run q [] w r t) :
    ∀ x ∈ t, ∃ name ∈ p.stack, x = .named name := by
  apply h.induction (P := fun _ _ s => ∀ x ∈ s, ∃ name ∈ p.stack, x = .named name) (u := [])
  · intro m hm _ s hs x hx
    rcases List.mem_append.1 hx with hx | hx
    · have hpush := Option.mem_toList.1 hx
      obtain ⟨name, rfl⟩ := hnamed m hm x (.inr hpush)
      exact ⟨name, (hp.mem_stack_iff name).2 ⟨m, hm, .inr hpush⟩, rfl⟩
    · exact hs x (List.mem_append_right _ hx)
  · intro x hx
    cases hx

end FormalLanguages.Pushdown
