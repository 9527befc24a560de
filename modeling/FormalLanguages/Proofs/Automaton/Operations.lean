import FormalLanguages.Proofs.Automaton.Thompson

/-!
# Runs of operations

Automata are made one after another out of one supply, from automata made before or handed in from
elsewhere. Each operation leaves the supply past the states of its operands and of its result.
Hence the supply is past the states of all automata that are known, and what the next operation draws
is new to all of them.
-/

namespace FormalLanguages

open Std Fresh

inductive Operation where
  | nothing (alphabet : Alphabet)
  | emptyWord (alphabet : Alphabet)
  | single (alphabet : Alphabet) (a : Label)
  | union (m n : Nfa)
  | concat (m n : Nfa)
  | star (n : Nfa)
  | relabel (n : Nfa)
  | complement (n : Nfa)
  | intersection (m n : Nfa)
  | difference (m n : Nfa)
  | symmetricDifference (m n : Nfa)
  | reverse (n : Nfa)
  | ofDfa (d : Dfa)
  | ofRegex (alphabet : Alphabet) (r : Regex)

namespace Operation

def run : Operation → Fresh Nfa
  | .nothing A => Nfa.nothing A
  | .emptyWord A => Nfa.emptyWord A
  | .single A a => Nfa.single A a
  | .union m n => m.union n
  | .concat m n => m.concat n
  | .star n => n.star
  | .relabel n => n.relabel
  | .complement n => n.complement
  | .intersection m n => m.intersection n
  | .difference m n => m.difference n
  | .symmetricDifference m n => m.symmetricDifference n
  | .reverse n => n.reverse
  | .ofDfa d => Nfa.ofDfa d
  | .ofRegex A r => Nfa.ofRegex A r

/-- The nondeterministic automata among what it is made from. -/
def operands : Operation → List Nfa
  | .union m n | .concat m n | .intersection m n | .difference m n | .symmetricDifference m n =>
    [m, n]
  | .star n | .relabel n | .complement n | .reverse n => [n]
  | .nothing _ | .emptyWord _ | .single _ _ | .ofDfa _ | .ofRegex _ _ => []

/-- The states of operands that become states of the result. All others are introduced. -/
def kept : Operation → StateSet
  | .union m n | .concat m n => m.states ∪ m.keptBeside n
  | .star n => n.states
  | _ => ∅

def WellFormed : Operation → Prop
  | .ofDfa d => d.WellFormed
  | op => ∀ n ∈ op.operands, n.WellFormed

variable {op : Operation} {ops : List Operation} {m n : Nfa} {s : Supply} {k : State}

/-- The least number that the supply can still give and that is above all states of operands. -/
def floor (op : Operation) (s : Supply) : State :=
  op.operands.foldl (fun k n => max k n.bound) s.next

theorem le_foldl_bound (ns : List Nfa) (k : State) :
    k ≤ ns.foldl (fun k n => max k n.bound) k ∧
      ∀ n ∈ ns, n.bound ≤ ns.foldl (fun k n => max k n.bound) k := by
  induction ns generalizing k with
  | nil => simp
  | cons m ns ih =>
    obtain ⟨hle, hns⟩ := ih (max k m.bound)
    refine ⟨(Nat.le_max_left _ _).trans hle, ?_⟩
    intro n hn
    rcases List.mem_cons.1 hn with rfl | hn
    · exact (Nat.le_max_right _ _).trans hle
    · exact hns n hn

theorem le_floor (op : Operation) (s : Supply) : s.next ≤ op.floor s :=
  (le_foldl_bound op.operands s.next).1

theorem bound_le_floor (hn : n ∈ op.operands) : n.bound ≤ op.floor s :=
  (le_foldl_bound op.operands s.next).2 n hn

theorem gives_nothing (A : Alphabet) : Gives s (Nfa.nothing A) (Nfa.Made ∅ s.next A 0) := by
  refine gives_fresh.bind ?_
  rintro q s₁ ⟨rfl, hs₁⟩
  have hstates : ∀ p, p ∈ ({s.next} : StateSet) → p = s.next := fun p hp => mem_singleton_iff.1 hp
  refine gives_pure ⟨⟨mem_singleton_iff.2 rfl, ?_, ?_, ?_⟩, rfl, ?_, ?_, ?_, by lia⟩
  · intro p hp
    exact absurd hp ExtTreeSet.not_mem_empty
  · intro p a hp
    simp at hp
  · intro p a r hr
    simp [Nfa.targets] at hr
  · ext w
    refine iff_of_false ?_ (Language.notMem_zero w)
    rintro ⟨r, hr, -⟩
    exact absurd hr ExtTreeSet.not_mem_empty
  · intro p hp
    exact .inr (hstates p hp).ge
  · intro p hp
    have hp := hstates p hp
    lia

theorem WellFormed.operand (h : op.WellFormed) (hn : n ∈ op.operands) : n.WellFormed := by
  cases op with
  | ofDfa d => exact absurd hn List.not_mem_nil
  | _ => exact h n hn

/-- The result is well-formed, and its states are kept or lie from the floor on. -/
theorem WellFormed.exists_gives_run (h : op.WellFormed) :
    ∃ A L, Gives s op.run (Nfa.Made op.kept (op.floor s) A L) := by
  cases op with
  | nothing A => exact ⟨_, _, gives_nothing A⟩
  | emptyWord A => exact ⟨_, _, Nfa.gives_emptyWord A⟩
  | single A a => exact ⟨_, _, Nfa.gives_single A a⟩
  | union m n =>
    exact ⟨_, _, Nfa.gives_union (h.operand (.head _)) (h.operand (.tail _ (.head _)))⟩
  | concat m n =>
    exact ⟨_, _, Nfa.gives_concat (h.operand (.head _)) (h.operand (.tail _ (.head _)))⟩
  | star n => exact ⟨_, _, Nfa.gives_star (h.operand (.head _))⟩
  | relabel n => exact ⟨_, _, Nfa.gives_relabel (h.operand (.head _))⟩
  | complement n => exact ⟨_, _, Nfa.gives_complement n⟩
  | intersection m n => exact ⟨_, _, Nfa.gives_intersection m n⟩
  | difference m n => exact ⟨_, _, Nfa.gives_difference m (h.operand (.tail _ (.head _)))⟩
  | symmetricDifference m n =>
    exact ⟨_, _, Nfa.gives_symmetricDifference (h.operand (.head _)) (h.operand (.tail _ (.head _)))⟩
  | reverse n => exact ⟨_, _, Nfa.gives_reverse n⟩
  | ofDfa d => exact ⟨_, _, Nfa.gives_ofDfa h⟩
  | ofRegex A r => exact ⟨_, _, Nfa.gives_ofRegex A r⟩

/-- The automata are well-formed, and the supply is past their states. -/
def Known (s : Supply) (ns : List Nfa) : Prop := ∀ n ∈ ns, n.WellFormed ∧ n.bound ≤ s.next

theorem Known.lt_next {ns : List Nfa} (h : Known s ns) (hn : n ∈ ns) : ∀ q ∈ n.states, q < s.next :=
  fun _ hq => (Nfa.lt_bound hq).trans_le (h n hn).2

/-- An operation keeps what is known and adds its operands and its result, and no state that it
introduces was known. -/
theorem WellFormed.gives_step {ns : List Nfa} (h : op.WellFormed) (hns : Known s ns) :
    Gives s op.run fun n s' => Known s' (n :: (op.operands ++ ns)) ∧
      ∀ q ∈ n.states, q ∈ op.kept ∨ ∀ m ∈ op.operands ++ ns, q ∉ m.states := by
  have hbound : ∀ m ∈ op.operands ++ ns, m.WellFormed ∧ m.bound ≤ op.floor s := by
    intro m hm
    rcases List.mem_append.1 hm with hm | hm
    · exact ⟨h.operand hm, bound_le_floor hm⟩
    · exact ⟨(hns m hm).1, (hns m hm).2.trans (le_floor op s)⟩
  obtain ⟨A, L, hgives⟩ := h.exists_gives_run (s := s)
  refine hgives.mono fun n s' hn => ⟨?_, ?_⟩
  · intro m hm
    rcases List.mem_cons.1 hm with rfl | hm
    · exact ⟨hn.wellFormed, hn.bound_le⟩
    · exact ⟨(hbound m hm).1, (hbound m hm).2.trans hn.floor_le⟩
  · intro q hq
    refine (hn.kept_or_le q hq).imp_right fun hle m hm => ?_
    exact Nfa.not_mem_of_bound_le ((hbound m hm).2.trans hle)

/-- All that a run has made or was given is known after it. -/
theorem gives_mapM_run {ns : List Nfa} (h : ∀ op ∈ ops, op.WellFormed) (hns : Known s ns) :
    Gives s (ops.mapM run) fun made s' => Known s' (made ++ (ops.flatMap operands ++ ns)) := by
  induction ops generalizing s ns with
  | nil => exact gives_pure hns
  | cons op ops ih =>
    rw [List.mapM_cons]
    refine ((h op List.mem_cons_self).gives_step hns).bind fun n s₁ hn => ?_
    refine (ih (fun op hop => h op (List.mem_cons_of_mem _ hop)) hn.1).bind fun made s₂ hmade => ?_
    refine gives_pure fun m hm => hmade m ?_
    simp only [List.flatMap_cons, List.mem_append, List.mem_cons] at hm ⊢
    tauto

/-- After any run of operations, all automata that it has made are well-formed and have their states
below the next number of the supply. The same holds of what an operation makes then. The states that
it introduces are not among those of its operands, nor of any automaton that was made or handed in
before. -/
theorem run_introduces_new (s : Supply) (h : ∀ op ∈ ops, op.WellFormed) :
    Gives s (ops.mapM run) fun made s₁ =>
      (∀ n ∈ made, n.WellFormed ∧ ∀ q ∈ n.states, q < s₁.next) ∧
      ∀ op : Operation, op.WellFormed → Gives s₁ op.run fun n s₂ =>
        n.WellFormed ∧ (∀ q ∈ n.states, q < s₂.next) ∧
        ∀ q ∈ n.states, q ∈ op.kept ∨
          ∀ m ∈ op.operands ++ (made ++ ops.flatMap operands), q ∉ m.states := by
  have hempty : Known s [] := by simp [Known]
  refine (gives_mapM_run h hempty).mono fun made s₁ hknown => ?_
  rw [List.append_nil] at hknown
  refine ⟨fun n hn => ?_, fun op hop => (hop.gives_step hknown).mono fun n s₂ hn => ?_⟩
  · have hn : n ∈ made ++ ops.flatMap operands := List.mem_append_left _ hn
    exact ⟨(hknown n hn).1, hknown.lt_next hn⟩
  · obtain ⟨hknown, hnew⟩ := hn
    have hn : n ∈ n :: (op.operands ++ (made ++ ops.flatMap operands)) := List.mem_cons_self
    exact ⟨(hknown n hn).1, hknown.lt_next hn, hnew⟩

/-- An automaton from elsewhere has the states of the first one made, and is put beside itself. -/
theorem run_introduces_new_oneMove :
    (∀ op ∈ [single {'a'} (some 'a'), complement Nfa.oneMove], op.WellFormed) ∧
    (union Nfa.oneMove Nfa.oneMove).WellFormed ∧
    ∃ made s₁ n s₂, [single {'a'} (some 'a'), complement Nfa.oneMove].mapM run {} = .ok (made, s₁) ∧
      (union Nfa.oneMove Nfa.oneMove).run s₁ = .ok (n, s₂) ∧ n.WellFormed ∧
      ∀ q ∈ n.states, q ∈ Nfa.oneMove.states ∨ ∀ m ∈ made, q ∉ m.states := by
  have hops : ∀ op ∈ [single {'a'} (some 'a'), complement Nfa.oneMove], op.WellFormed := by
    simp [WellFormed, operands, Nfa.wellFormed_oneMove]
  have hop : (union Nfa.oneMove Nfa.oneMove).WellFormed := by
    simp [WellFormed, operands, Nfa.wellFormed_oneMove]
  obtain ⟨made, s₁, hmade, -, hnext⟩ := run_introduces_new {} hops (by decide +kernel)
  have hs₁ : ([single {'a'} (some 'a'), complement Nfa.oneMove].mapM run {}).toOption.map
      (·.2) = some ⟨5⟩ := by decide +kernel
  rw [hmade] at hs₁
  obtain rfl : s₁ = ⟨5⟩ := Option.some.inj hs₁
  obtain ⟨n, s₂, hn, hwell, -, hnew⟩ := hnext _ hop (by decide +kernel)
  refine ⟨hops, hop, made, ⟨5⟩, n, s₂, hmade, hn, hwell, fun q hq => ?_⟩
  refine (hnew q hq).imp (fun hkept => ?_) fun hnew m hm => hnew m (by simp [hm])
  exact (ExtTreeSet.mem_union_iff.1 hkept).elim id Nfa.mem_of_mem_keptBeside

end Operation

end FormalLanguages
