import FormalLanguages.Automaton.Dfa
import FormalLanguages.Proofs.Automaton.Paths

/-!
# Runs of deterministic automata

A run reads a word in one way at most. If no run gets stuck, exchanging the accept states and the
others complements the language.
-/

namespace FormalLanguages.Dfa

open Std

def language (d : Dfa) : Language Char := {w | d.accepts w}

/-- Every state named anywhere is a state of the automaton, and every move reads a letter of the
alphabet. -/
structure WellFormed (d : Dfa) : Prop where
  start_mem : d.start ∈ d.states
  accept_mem : ∀ q ∈ d.accept, q ∈ d.states
  source_mem : ∀ q c r, d.next? q c = some r → q ∈ d.states
  target_mem : ∀ q c r, d.next? q c = some r → r ∈ d.states
  letter_mem : ∀ q c r, d.next? q c = some r → c ∈ d.alphabet

variable {d : Dfa} {q r : State} {u v w : List Char} {c : Char}

theorem WellFormed.complement (hd : d.WellFormed) : d.complement.WellFormed where
  start_mem := hd.start_mem
  accept_mem _ hq := (ExtTreeSet.mem_diff_iff.1 hq).1
  source_mem := hd.source_mem
  target_mem := hd.target_mem
  letter_mem := hd.letter_mem

@[simp] theorem run_nil : d.run q [] = some q := rfl

theorem run_append : d.run q (u ++ v) = (d.run q u).bind fun r => d.run r v := List.foldlM_append

theorem run_singleton : d.run q [c] = d.next? q c := by
  simp [run]

theorem run_append_eq_some : d.run q (u ++ v) = some r ↔
    ∃ t, d.run q u = some t ∧ d.run t v = some r := by
  rw [run_append, Option.bind_eq_some_iff]

theorem run_concat_eq_some : d.run q (w ++ [c]) = some r ↔
    ∃ t, d.run q w = some t ∧ d.next? t c = some r := by
  simp only [run_append_eq_some, run_singleton]

theorem run_cons_eq_some : d.run q (c :: w) = some r ↔
    ∃ t, d.next? q c = some t ∧ d.run t w = some r := by
  rw [← List.singleton_append, run_append_eq_some, run_singleton]

theorem mem_language : w ∈ d.language ↔
    w ∈ d.alphabet.words ∧ ∃ q ∈ d.accept, d.run d.start w = some q := by
  show d.accepts w = true ↔ _
  simp [accepts, Alphabet.mem_words, Option.any_eq_true, and_comm]

theorem language_complement
    (total : ∀ w ∈ d.alphabet.words, ∃ q ∈ d.states, d.run d.start w = some q) :
    d.complement.language = d.alphabet.words - d.language := by
  ext w
  have hrun : d.complement.run d.start w = d.run d.start w := rfl
  rw [Language.mem_sub, mem_language, mem_language]
  show (w ∈ d.alphabet.words ∧ ∃ q ∈ d.states \ d.accept, d.complement.run d.start w = some q) ↔ _
  rw [hrun]
  simp only [ExtTreeSet.mem_diff_iff]
  constructor
  · rintro ⟨hw, q, ⟨-, hq⟩, hrun⟩
    refine ⟨hw, ?_⟩
    rintro ⟨-, r, hr, hrun'⟩
    rw [hrun] at hrun'
    exact hq (Option.some.inj hrun' ▸ hr)
  · rintro ⟨hw, hnot⟩
    obtain ⟨q, hq, hrun⟩ := total w hw
    exact ⟨hw, q, ⟨hq, fun haccept => hnot ⟨hw, q, haccept, hrun⟩⟩, hrun⟩

end FormalLanguages.Dfa
