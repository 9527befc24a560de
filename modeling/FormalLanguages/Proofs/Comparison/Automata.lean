import FormalLanguages.Proofs.Comparison.Regular

/-!
# The comparison of automata over different alphabets

A difference is taken over the letters of both automata. The complement of the first automaton that
goes into it has words over the letters of the first only, and so a word with another letter is found
in the difference although the first automaton does not accept it. Over one alphabet, the witnesses
are words that one deterministic automaton accepts and the other rejects.
-/

namespace FormalLanguages.Nfa

open Std Fresh

variable {m n : Nfa} {s : Supply} {v : List Char}

/-- The words over the letters of both automata that the first accepts or cannot read, and that the
second does not accept. -/
def excess (m n : Nfa) : Language Char :=
  {v | (∀ c ∈ v, c ∈ m.alphabet ∨ c ∈ n.alphabet) ∧ (m.Accepts v ∨ ∃ c ∈ v, c ∉ m.alphabet) ∧
    ¬n.Accepts v}

/-- The words that the deterministic automaton of the first accepts and that of the second rejects. -/
def separated (m n : Nfa) : Language Char :=
  {v | m.determinize.accepts v = true ∧ n.determinize.accepts v = false}

theorem mem_separated_iff : v ∈ m.separated n ↔
    (v ∈ m.alphabet.words ∧ m.Accepts v) ∧ ¬(v ∈ n.alphabet.words ∧ n.Accepts v) := by
  have hm := Language.ext_iff.1 m.language_determinize v
  have hn := Language.ext_iff.1 n.language_determinize v
  show m.determinize.accepts v = true ∧ n.determinize.accepts v = false ↔ _
  rw [← Bool.not_eq_true]
  exact and_congr hm (not_congr hn)

theorem excess_eq_separated (h : m.alphabet = n.alphabet) : m.excess n = m.separated n := by
  ext v
  rw [mem_separated_iff, h]
  show (_ ∧ _ ∧ _) ↔ _
  simp only [h, Alphabet.mem_words, or_self]
  grind

theorem excess_eq (m n : Nfa) : m.excess n =
    (m.alphabet ∪ n.alphabet).words - ((m.alphabet.words - m.language) + n.language) := by
  ext v
  show (_ ∧ (v ∈ m.language ∨ _) ∧ v ∉ n.language) ↔ _
  simp only [Language.mem_sub, Language.mem_add, Alphabet.mem_words, ExtTreeSet.mem_union_iff]
  grind

theorem gives_excess (m : Nfa) (hn : n.WellFormed) :
    Gives s (m.difference n) fun d _ => IsLeast? (m.excess n) d.shortest? := by
  refine (gives_difference m hn).mono fun d s' hd => ?_
  have hwords : d.alphabet.words ⊓ d.language = m.excess n := by
    ext v
    simp only [excess_eq, hd.alphabet_eq, hd.language_eq, Language.mem_inf, Language.mem_sub]
    tauto
  exact hwords ▸ d.isLeast_shortest?

/-- The witnesses are the least words of the two excesses. If the automata have the same alphabet,
they are the least words that one deterministic automaton accepts and the other rejects. -/
theorem witnesses_over_alphabets (hm : m.WellFormed) (hn : n.WellFormed) (s : Supply) :
    Gives s (m.witnesses n) fun w _ =>
      (IsLeast? (m.excess n) w.left ∧ IsLeast? (n.excess m) w.right) ∧
      (m.alphabet = n.alphabet →
        IsLeast? (m.separated n) w.left ∧ IsLeast? (n.separated m) w.right) := by
  refine (gives_excess m hn).bind fun left s₁ hl => ?_
  refine (gives_excess n hm).bind fun right s₂ hr => ?_
  refine gives_pure ⟨⟨hl, hr⟩, fun h => ?_⟩
  rw [← excess_eq_separated h, ← excess_eq_separated h.symm]
  exact ⟨hl, hr⟩

def manyA (A : Alphabet) : Nfa where
  states := {0}
  alphabet := A
  start := 0
  moves := Moves.extend ∅ (0, some 'a') {0}
  accept := {0}

theorem wellFormed_manyA (A : Alphabet) : (manyA A).WellFormed where
  start_mem := mem_singleton_iff.2 rfl
  accept_mem _ hq := hq
  source_mem q a h := by
    obtain ⟨rfl, -⟩ := Prod.mk.inj ((Moves.mem_extend.1 h).resolve_left (by simp))
    exact mem_singleton_iff.2 rfl
  target_mem q a r h := ((Moves.mem_getD_extend.1 h).resolve_left (by simp)).2

/-- The empty word separates an automaton that accepts it from one that does not. -/
theorem witnesses_over_alphabets_letter : (manyA {'a'}).WellFormed ∧ oneMove.WellFormed ∧
    ∃ w s', (manyA {'a'}).witnesses oneMove {} = .ok (w, s') ∧ w.left = some [] := by
  obtain ⟨w, s', hw, -, hsame⟩ :=
    witnesses_over_alphabets (wellFormed_manyA {'a'}) wellFormed_oneMove {} (by decide +kernel)
  refine ⟨wellFormed_manyA {'a'}, wellFormed_oneMove, w, s', hw, ?_⟩
  have hnil : [] ∈ (manyA {'a'}).separated oneMove := by
    show _ ∧ _
    decide +kernel
  exact (hsame rfl).1.eq_some_nil hnil

/-- Two automata that accept the same words, of which the second has a letter more. That letter is
the witness for the first, which rejects it. -/
theorem witness_rejected :
    (manyA {'a'}).WellFormed ∧ (manyA {'a', 'b'}).WellFormed ∧
    (∀ v, v ∉ (manyA {'a'}).separated (manyA {'a', 'b'})) ∧
    ∃ w s', (manyA {'a'}).witnesses (manyA {'a', 'b'}) {} = .ok (w, s') ∧ w.left = some ['b'] ∧
      (manyA {'a'}).determinize.accepts ['b'] = false := by
  refine ⟨wellFormed_manyA _, wellFormed_manyA _, fun v hv => ?_, ?_⟩
  · obtain ⟨⟨hword, q, hq, hpath⟩, hnot⟩ := mem_separated_iff.1 hv
    have hpath : (manyA {'a', 'b'}).Path (manyA {'a', 'b'}).start v q :=
      Path.mono (m := manyA {'a'}) (fun _ _ _ hr => hr) hpath
    refine hnot ⟨fun c hc => ?_, q, hq, hpath⟩
    obtain rfl := mem_singleton_iff.1 (hword c hc)
    decide
  · have hleft : ((manyA {'a'}).witnesses (manyA {'a', 'b'}) {}).toOption.map (·.1.left) =
        some (some ['b']) := by decide +kernel
    cases hw : (manyA {'a'}).witnesses (manyA {'a', 'b'}) {} with
    | error e =>
      rw [hw] at hleft
      cases hleft
    | ok r =>
      rw [hw] at hleft
      exact ⟨r.1, r.2, rfl, Option.some.inj hleft, by decide +kernel⟩

end FormalLanguages.Nfa
