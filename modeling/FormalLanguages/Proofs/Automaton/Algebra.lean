import FormalLanguages.Proofs.Automaton.Constructions
import FormalLanguages.Proofs.Automaton.Determinize
import FormalLanguages.Proofs.Fresh

/-!
# What the operations on automata make

Each operation makes a well-formed automaton out of well-formed ones and leaves the supply past all
states of the result. Every state of the result is one that an operand had already, or it is drawn
after all states of the operands and is not less than what the supply held before. This keeps the
parts of a composed automaton apart, whatever states the operands share.
-/

namespace FormalLanguages

open Std Computability Fresh

namespace Nfa

variable {m n : Nfa} {d : Dfa} {s s' : Supply} {q : State} {w : List Char}

/-- The least number above all states. -/
def bound (n : Nfa) : State :=
  match StateSet.greatest? n.states with
  | some q => q + 1
  | none => 0

theorem lt_bound (hq : q ∈ n.states) : q < n.bound := by
  cases hm : StateSet.greatest? n.states with
  | none =>
    have hnil : n.states.toList = [] := List.getLast?_eq_none_iff.1 hm
    have hq := ExtTreeSet.mem_toList.2 hq
    rw [hnil] at hq
    exact absurd hq List.not_mem_nil
  | some k =>
    rw [bound, hm]
    exact Nat.lt_succ_of_le (StateSet.le_greatest hq hm)

theorem gives_reserve (n : Nfa) :
    Gives s n.reserve fun _ s' => s'.next = max s.next n.bound := by
  rw [reserve, bound]
  cases StateSet.greatest? n.states with
  | none => exact gives_pure (Nat.max_zero _).symm
  | some k => exact gives_reservePast k

end Nfa

/-- The numbers are drawn in turn, so that no two states get the same one. -/
theorem gives_renumber (qs : List State) {s : Supply} :
    Gives s (renumber qs) fun number s' => s.next ≤ s'.next ∧
      (∀ q ∈ qs, s.next ≤ number.getD q q ∧ number.getD q q < s'.next) ∧
      ∀ p ∈ qs, ∀ q ∈ qs, number.getD p p = number.getD q q → p = q := by
  induction qs generalizing s with
  | nil => exact gives_pure ⟨Nat.le_refl _, by simp, by simp⟩
  | cons p qs ih =>
    refine gives_fresh.bind ?_
    rintro r s₁ ⟨hr, hs₁⟩
    refine ih.bind ?_
    rintro number s₂ ⟨hle, hrange, hinj⟩
    have hget : ∀ q, (number.insert p r).getD q q = if p = q then r else number.getD q q := by
      intro q
      simp [ExtTreeMap.getD_insert]
    refine gives_pure ?_
    simp only [hget]
    refine ⟨by lia, ?_, ?_⟩
    · grind
    · grind

namespace Nfa

variable {m n : Nfa} {d : Dfa} {s s' : Supply} {q k l : State} {A B : Alphabet}
  {L M : Language Char} {kept kept' : StateSet}

/-- An automaton with the given alphabet and language that an operation has made. Each of its states
is one of the kept ones or at least `floor`, and below what the supply holds now. -/
structure Made (kept : StateSet) (floor : State) (A : Alphabet) (L : Language Char) (n : Nfa)
    (s : Supply) : Prop where
  wellFormed : n.WellFormed
  alphabet_eq : n.alphabet = A
  language_eq : n.language = L
  kept_or_le : ∀ q ∈ n.states, q ∈ kept ∨ floor ≤ q
  lt_next : ∀ q ∈ n.states, q < s.next
  floor_le : floor ≤ s.next

namespace Made

theorem mono (h : Made kept k A L n s) (hkept : ∀ q ∈ kept, q ∈ kept' ∨ l ≤ q) (hl : l ≤ k) :
    Made kept' l A L n s where
  wellFormed := h.wellFormed
  alphabet_eq := h.alphabet_eq
  language_eq := h.language_eq
  kept_or_le q hq := (h.kept_or_le q hq).elim (hkept q) fun hk => .inr (hl.trans hk)
  lt_next := h.lt_next
  floor_le := hl.trans h.floor_le

theorem bound_le (h : Made kept k A L n s) : n.bound ≤ s.next := by
  have hlt := h.lt_next
  unfold bound
  cases hm : StateSet.greatest? n.states with
  | none => exact Nat.zero_le _
  | some q =>
    exact hlt q (ExtTreeSet.mem_toList.1 (List.mem_of_getLast? hm))

end Made

theorem not_mem_of_bound_le (h : n.bound ≤ q) : q ∉ n.states :=
  fun hq => Nat.not_lt_of_le h (lt_bound hq)

/-! ### New numbers -/

theorem Made.mapStates {f : State → State} (hn : n.WellFormed)
    (hrange : ∀ q ∈ n.states, k ≤ f q ∧ f q < s.next)
    (hinj : ∀ p ∈ n.states, ∀ q ∈ n.states, f p = f q → p = q) (hk : k ≤ s.next) :
    Made ∅ k n.alphabet n.language (n.mapStates f) s where
  wellFormed := hn.mapStates f
  alphabet_eq := rfl
  language_eq := language_mapStates hn hinj
  kept_or_le q hq := by
    obtain ⟨p, hp, rfl⟩ := StateSet.mem_image.1 hq
    exact .inr (hrange p hp).1
  lt_next q hq := by
    obtain ⟨p, hp, rfl⟩ := StateSet.mem_image.1 hq
    exact (hrange p hp).2
  floor_le := hk

theorem gives_renumbered (hn : n.WellFormed) :
    Gives s (do
      let number ← renumber n.states.toList
      return n.mapStates fun q => number.getD q q) (Made ∅ s.next n.alphabet n.language) := by
  refine (gives_renumber n.states.toList).bind ?_
  rintro number s' ⟨hle, hrange, hinj⟩
  simp only [ExtTreeSet.mem_toList] at hrange hinj
  exact gives_pure (.mapStates hn hrange hinj hle)

theorem gives_relabel (hn : n.WellFormed) :
    Gives s n.relabel (Made ∅ (max s.next n.bound) n.alphabet n.language) := by
  refine (gives_reserve n).bind ?_
  intro _ s₁ hs₁
  exact (gives_renumbered hn).mono fun _ _ h => h.mono (by simp) hs₁.ge

theorem gives_ofDfa (hd : d.WellFormed) :
    Gives s (ofDfa d) (Made ∅ s.next d.alphabet d.language) := by
  rw [← language_toNfa hd]
  exact gives_renumbered (wellFormed_toNfa hd)

/-- The states that the second automaton keeps beside the first. It keeps none if the two share
one. -/
def keptBeside (m n : Nfa) : StateSet := if (m.states ∩ n.states).isEmpty then n.states else ∅

theorem mem_of_mem_keptBeside (hq : q ∈ m.keptBeside n) : q ∈ n.states := by
  unfold keptBeside at hq
  split at hq
  · exact hq
  · exact absurd hq ExtTreeSet.not_mem_empty

/-- The second automaton with the states of the first reserved and none of them used. -/
theorem gives_apart (hn : n.WellFormed) :
    Gives s (m.apart n) fun n' s' =>
      Made (m.keptBeside n) (max (max s.next m.bound) n.bound) n.alphabet n.language n' s' ∧
        m.Disjoint n' := by
  refine (gives_reserve m).bind ?_
  intro _ s₁ hs₁
  refine (gives_reserve n).bind ?_
  intro _ s₂ hs₂
  split
  · next hempty =>
    rw [keptBeside, if_pos hempty]
    refine gives_pure ⟨⟨hn, rfl, rfl, fun q hq => .inl hq, ?_, ?_⟩, ?_⟩
    · intro q hq
      have hlt := lt_bound hq
      lia
    · lia
    · intro q hm hn
      have hq : q ∈ m.states ∩ n.states := ExtTreeSet.mem_inter_iff.2 ⟨hm, hn⟩
      rw [ExtTreeSet.isEmpty_iff.1 hempty] at hq
      exact ExtTreeSet.not_mem_empty hq
  · refine (gives_relabel hn).mono ?_
    intro n' s' h
    refine ⟨h.mono (by simp) (by lia), ?_⟩
    intro q hm hn'
    have hlt := lt_bound hm
    have hge := (h.kept_or_le q hn').resolve_left ExtTreeSet.not_mem_empty
    lia

/-! ### Union, concatenation and star -/

theorem gives_union (hm : m.WellFormed) (hn : n.WellFormed) :
    Gives s (m.union n) (Made (m.states ∪ m.keptBeside n) (max (max s.next m.bound) n.bound)
      (m.alphabet ∪ n.alphabet) (m.language + n.language)) := by
  refine (gives_apart (m := m) hn).bind ?_
  rintro n' s₁ ⟨hn', hmn⟩
  refine gives_fresh.bind ?_
  rintro _ s₂ ⟨rfl, hs₂⟩
  have hfloor := hn'.floor_le
  have hqm : s₁.next ∉ m.states := not_mem_of_bound_le (by lia)
  have hqn : s₁.next ∉ n'.states := not_mem_of_bound_le hn'.bound_le
  refine gives_pure ⟨hm.choice hn'.wellFormed _, ?_, ?_, ?_, ?_, by lia⟩
  · show m.alphabet ∪ n'.alphabet = _
    rw [hn'.alphabet_eq]
  · rw [language_choice hm hn'.wellFormed hmn hqm hqn, hn'.language_eq]
  · intro q hq
    rw [ExtTreeSet.mem_union_iff, or_assoc]
    rcases mem_insert_iff.1 hq with rfl | hq
    · exact .inr (.inr hfloor)
    · exact (ExtTreeSet.mem_union_iff.1 hq).imp_right (hn'.kept_or_le q)
  · intro q hq
    rcases mem_insert_iff.1 hq with rfl | hq
    · lia
    · rcases ExtTreeSet.mem_union_iff.1 hq with hq | hq
      · have hlt := lt_bound hq
        lia
      · have hlt := hn'.lt_next q hq
        lia

theorem gives_concat (hm : m.WellFormed) (hn : n.WellFormed) :
    Gives s (m.concat n) (Made (m.states ∪ m.keptBeside n) (max (max s.next m.bound) n.bound)
      (m.alphabet ∪ n.alphabet) (m.language * n.language)) := by
  refine (gives_apart (m := m) hn).bind ?_
  rintro n' s₁ ⟨hn', hmn⟩
  have hfloor := hn'.floor_le
  refine gives_pure ⟨hm.chain hn'.wellFormed, ?_, ?_, ?_, ?_, hfloor⟩
  · show m.alphabet ∪ n'.alphabet = _
    rw [hn'.alphabet_eq]
  · rw [language_chain hm hn'.wellFormed hmn, hn'.language_eq]
  · intro q hq
    rw [ExtTreeSet.mem_union_iff, or_assoc]
    exact (ExtTreeSet.mem_union_iff.1 hq).imp_right (hn'.kept_or_le q)
  · intro q hq
    rcases ExtTreeSet.mem_union_iff.1 hq with hq | hq
    · have hlt := lt_bound hq
      lia
    · exact hn'.lt_next q hq

/-- One state is drawn past all others, so that it is new. -/
theorem gives_star (hn : n.WellFormed) :
    Gives s n.star (Made n.states (max s.next n.bound) n.alphabet n.language∗) := by
  refine (gives_reserve n).bind ?_
  intro _ s₁ hs₁
  refine gives_fresh.bind ?_
  rintro _ s₂ ⟨rfl, hs₂⟩
  have hq : s₁.next ∉ n.states := not_mem_of_bound_le (by lia)
  refine gives_pure ⟨hn.loop _, rfl, language_loop hn hq, ?_, ?_, by lia⟩
  · intro q hq
    rcases mem_insert_iff.1 hq with rfl | hq
    · exact .inr hs₁.ge
    · exact .inl hq
  · intro q hq
    rcases mem_insert_iff.1 hq with rfl | hq
    · lia
    · have hlt := lt_bound hq
      lia

/-! ### Operations by way of deterministic automata -/

theorem gives_complement (n : Nfa) :
    Gives s n.complement
      (Made ∅ (max s.next n.bound) n.alphabet (n.alphabet.words - n.language)) := by
  refine (gives_reserve n).bind ?_
  intro _ s₁ hs₁
  rw [← language_complement_determinize]
  exact (gives_ofDfa wellFormed_determinize.complement).mono fun _ _ h => h.mono (by simp) hs₁.ge

theorem gives_reverse (n : Nfa) :
    Gives s n.reverse
      (Made ∅ (max s.next n.bound) n.alphabet (n.alphabet.words ⊓ n.language).reverse) := by
  refine (gives_reserve n).bind ?_
  intro _ s₁ hs₁
  refine (gives_ofDfa wellFormed_determinize).bind ?_
  intro m s₂ hm
  refine gives_fresh.bind ?_
  rintro _ s₃ ⟨rfl, hs₃⟩
  have hq : s₂.next ∉ m.states := not_mem_of_bound_le hm.bound_le
  have hfloor := hm.floor_le
  refine gives_pure ⟨hm.wellFormed.mirror _, hm.alphabet_eq, ?_, ?_, ?_, by lia⟩
  · rw [language_mirror hm.wellFormed hq, hm.language_eq, language_determinize]
  · intro q hq
    rcases mem_insert_iff.1 hq with rfl | hq
    · exact .inr (by lia)
    · exact (hm.kept_or_le q hq).imp_right fun hle => hs₁.ge.trans hle
  · intro q hq
    rcases mem_insert_iff.1 hq with rfl | hq
    · lia
    · have hlt := hm.lt_next q hq
      lia

/-- The complement of a union of which one part at least is new. -/
theorem gives_union_complement (hm : m.WellFormed) (hn : n.WellFormed) :
    Gives s (do (← m.union n).complement) (Made ∅ (max (max s.next m.bound) n.bound)
      (m.alphabet ∪ n.alphabet)
      ((m.alphabet ∪ n.alphabet).words - (m.language + n.language))) := by
  refine (gives_union hm hn).bind ?_
  intro u s₁ hu
  have hfloor := hu.floor_le
  rw [← hu.alphabet_eq, ← hu.language_eq]
  exact (gives_complement u).mono fun _ _ h => h.mono (by simp) (by lia)

theorem gives_intersection (m n : Nfa) :
    Gives s (m.intersection n) (Made ∅ (max (max s.next m.bound) n.bound)
      (m.alphabet ∪ n.alphabet)
      ((m.alphabet ∪ n.alphabet).words -
        ((m.alphabet.words - m.language) + (n.alphabet.words - n.language)))) := by
  refine (gives_reserve n).bind ?_
  intro _ s₁ hs₁
  refine (gives_complement m).bind ?_
  intro m' s₂ hm
  refine (gives_complement n).bind ?_
  intro n' s₃ hn
  have hm_floor := hm.floor_le
  have hn_floor := hn.floor_le
  rw [← hm.language_eq, ← hn.language_eq, ← hm.alphabet_eq, ← hn.alphabet_eq]
  exact (gives_union_complement hm.wellFormed hn.wellFormed).mono
    fun _ _ h => h.mono (by simp) (by lia)

theorem gives_difference (m : Nfa) (hn : n.WellFormed) :
    Gives s (m.difference n) (Made ∅ (max (max s.next m.bound) n.bound)
      (m.alphabet ∪ n.alphabet)
      ((m.alphabet ∪ n.alphabet).words - ((m.alphabet.words - m.language) + n.language))) := by
  refine (gives_reserve n).bind ?_
  intro _ s₁ hs₁
  refine (gives_complement m).bind ?_
  intro m' s₂ hm
  have hm_floor := hm.floor_le
  rw [← hm.language_eq, ← hm.alphabet_eq]
  exact (gives_union_complement hm.wellFormed hn).mono fun _ _ h => h.mono (by simp) (by lia)

/-- The words in one difference or the other. -/
theorem gives_symmetricDifference (hm : m.WellFormed) (hn : n.WellFormed) :
    Gives s (m.symmetricDifference n) (Made ∅ (max (max s.next m.bound) n.bound)
      ((m.alphabet ∪ n.alphabet) ∪ (n.alphabet ∪ m.alphabet))
      (((m.alphabet ∪ n.alphabet).words - ((m.alphabet.words - m.language) + n.language)) +
        ((n.alphabet ∪ m.alphabet).words - ((n.alphabet.words - n.language) + m.language)))) := by
  refine (gives_difference m hn).bind ?_
  intro left s₁ hl
  refine (gives_difference n hm).bind ?_
  intro right s₂ hr
  have hl_floor := hl.floor_le
  have hr_floor := hr.floor_le
  rw [← hl.language_eq, ← hr.language_eq, ← hl.alphabet_eq, ← hr.alphabet_eq]
  refine (gives_union hl.wellFormed hr.wellFormed).mono fun _ _ h => h.mono ?_ (by lia)
  intro q hq
  rcases ExtTreeSet.mem_union_iff.1 hq with hq | hq
  · exact hl.kept_or_le q hq
  · exact (hr.kept_or_le q (mem_of_mem_keptBeside hq)).imp_right fun hle => by lia

end Nfa

/-! ### Automata over one alphabet -/

namespace Alphabet

variable {A : Alphabet} {L M : Language Char}

theorem union_self (A : Alphabet) : A ∪ A = A :=
  ExtTreeSet.ext_mem fun c => by rw [ExtTreeSet.mem_union_iff, or_self]

end Alphabet

namespace Nfa

variable {m n : Nfa} {s : Supply} {A : Alphabet}

section SameAlphabet

variable (hmA : m.alphabet = A) (hnA : n.alphabet = A)

include hmA hnA

end SameAlphabet

def oneMove : Nfa where
  states := {0, 1}
  alphabet := {'a'}
  start := 0
  moves := Moves.extend ∅ (0, some 'a') {1}
  accept := {1}

theorem wellFormed_oneMove : oneMove.WellFormed where
  start_mem := by decide
  accept_mem q hq := by
    obtain rfl := mem_singleton_iff.1 hq
    decide
  source_mem q a h := by
    obtain ⟨rfl, -⟩ := Prod.mk.inj ((Moves.mem_extend.1 h).resolve_left (by simp))
    decide
  target_mem q a r h := by
    obtain ⟨-, hr⟩ := (Moves.mem_getD_extend.1 h).resolve_left (by simp)
    obtain rfl := mem_singleton_iff.1 hr
    decide

end Nfa

end FormalLanguages
