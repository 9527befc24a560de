import FormalLanguages.Automaton.Thompson
import FormalLanguages.Proofs.Automaton.Algebra
import FormalLanguages.Proofs.Regex.Language

/-!
# Automata of regular expressions have their languages

The automaton is put together as the expression is, by operations that are exact. Hence so is the
whole automaton, by induction on the expression. Its deterministic automaton sees the words over the
alphabet only.
-/

namespace FormalLanguages.Nfa

open Std Computability Fresh

variable {m n : Nfa} {s s' : Supply} {k l : State} {A : Alphabet} {L M N : Language Char} {a : Label}

/-! ### Automata of one word -/

theorem gives_single (A : Alphabet) (a : Label) :
    Gives s (single A a) (Made ∅ s.next A {a.toList}) := by
  refine gives_fresh.bind ?_
  rintro q s₁ ⟨hq, hs₁⟩
  refine gives_fresh.bind ?_
  rintro r s₂ ⟨hr, hs₂⟩
  refine gives_pure ⟨wellFormed_arrow A a q r, rfl, language_arrow A (by lia), ?_, ?_, by lia⟩
  · intro p hp
    rcases mem_states_arrow.1 hp with rfl | rfl
    · exact .inr (by lia)
    · exact .inr (by lia)
  · intro p hp
    rcases mem_states_arrow.1 hp with rfl | rfl
    · lia
    · lia

theorem gives_emptyWord (A : Alphabet) : Gives s (emptyWord A) (Made ∅ s.next A 1) := by
  refine gives_fresh.bind ?_
  rintro q s₁ ⟨rfl, hs₁⟩
  have hstates : ∀ p, p ∈ ({s.next} : StateSet) → p = s.next := fun p hp => mem_singleton_iff.1 hp
  refine gives_pure ⟨⟨?_, fun p hp => hp, ?_, ?_⟩, rfl, ?_, ?_, ?_, by lia⟩
  · exact mem_singleton_iff.2 rfl
  · intro p a hp
    simp at hp
  · intro p a r hr
    simp [targets] at hr
  · ext w
    rw [Language.mem_one]
    constructor
    · rintro ⟨r, hr, hpath⟩
      rcases hpath.eq_or_exists_move with ⟨rfl, -⟩ | ⟨a, p, v, hp, -⟩
      · rfl
      · simp [targets] at hp
    · rintro rfl
      exact ⟨s.next, mem_singleton_iff.2 rfl, .refl _⟩
  · intro p hp
    exact .inr (hstates p hp).ge
  · intro p hp
    have hp := hstates p hp
    lia

/-! ### Automata of new parts -/

/-- What keeps states of parts only that were themselves made new. -/
theorem Made.join {r : Nfa} {s₁ s₂ : Supply} (hm : Made ∅ k A L m s) (hn : Made ∅ k A M n s₁)
    (h : Made (m.states ∪ m.keptBeside n) (max (max s₁.next m.bound) n.bound) (m.alphabet ∪ n.alphabet) N
      r s₂) : Made ∅ k A N r s₂ := by
  have hfloor := hn.floor_le
  rw [hm.alphabet_eq, hn.alphabet_eq, Alphabet.union_self] at h
  refine h.mono ?_ (by lia)
  intro q hq
  exact (ExtTreeSet.mem_union_iff.1 hq).elim (hm.kept_or_le q)
    fun hq => hn.kept_or_le q (mem_of_mem_keptBeside hq)

theorem Made.gives_union (hm : Made ∅ k A L m s') (hn : Made ∅ k A M n s) :
    Gives s (m.union n) (Made ∅ k A (L + M)) := by
  rw [← hm.language_eq, ← hn.language_eq]
  exact (Nfa.gives_union hm.wellFormed hn.wellFormed).mono fun _ _ h => hm.join hn h

theorem Made.gives_concat (hm : Made ∅ k A L m s') (hn : Made ∅ k A M n s) :
    Gives s (m.concat n) (Made ∅ k A (L * M)) := by
  rw [← hm.language_eq, ← hn.language_eq]
  exact (Nfa.gives_concat hm.wellFormed hn.wellFormed).mono fun _ _ h => hm.join hn h

theorem Made.gives_star (hn : Made ∅ k A L n s) : Gives s n.star (Made ∅ k A L∗) := by
  have hfloor := hn.floor_le
  rw [← hn.alphabet_eq, ← hn.language_eq]
  exact (Nfa.gives_star hn.wellFormed).mono fun _ _ h => h.mono hn.kept_or_le (by lia)

/-- What was made out of a part of the supply that has been drawn on since then. -/
theorem Made.below (h : Made ∅ l A L n s') (hl : k ≤ l) : Made ∅ k A L n s' := h.mono (by simp) hl

/-! ### Whole expressions -/

theorem gives_ofRegex (A : Alphabet) (r : Regex) :
    Gives s (ofRegex A r) (Made ∅ s.next A r.language) := by
  induction r generalizing s with
  | literal a =>
    rw [Regex.language_literal]
    exact gives_single A a
  | concat r t ihr iht =>
    rw [Regex.language_concat]
    refine ihr.bind fun m s₁ hm => iht.bind fun n s₂ hn => ?_
    exact hm.gives_concat (hn.below hm.floor_le)
  | union r t ihr iht =>
    rw [Regex.language_union]
    refine ihr.bind fun m s₁ hm => iht.bind fun n s₂ hn => ?_
    exact hm.gives_union (hn.below hm.floor_le)
  | option r ih =>
    rw [Regex.language_option]
    refine ih.bind fun m s₁ hm => (gives_single A none).bind fun n s₂ hn => ?_
    exact hm.gives_union (hn.below hm.floor_le)
  | star r ih =>
    rw [Regex.language_star]
    exact ih.bind fun n s₁ hn => hn.gives_star
  | plus r ih =>
    rw [Regex.language_plus]
    refine ih.bind fun once s₁ honce => ih.bind fun n s₂ hn => hn.gives_star.bind fun more s₃ hmore => ?_
    exact honce.gives_concat (hmore.below honce.floor_le)
  | group r ih =>
    rw [Regex.language_group]
    exact ih

theorem gives_ofText (A : Alphabet) {text : List Char} {parsed : Option Regex}
    (h : Regex.parse text = .ok parsed) :
    Gives s (ofText A text) (Made ∅ s.next A (Regex.meaning parsed)) := by
  unfold ofText
  rw [h]
  cases parsed with
  | none => exact gives_emptyWord A
  | some r => exact gives_ofRegex A r

end FormalLanguages.Nfa
