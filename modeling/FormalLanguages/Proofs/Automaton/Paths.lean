import FormalLanguages.Automaton.Nfa
import Mathlib.Computability.Language
import Mathlib.Order.ConditionallyCompleteLattice.Basic

/-!
# Paths of automata

Paths can be put together and cut apart between two characters. A relation between the states of
two automata that is kept by every move carries the paths of one over to the other.
-/

namespace FormalLanguages

open Computability

theorem append_mem_kstar {L : Language Char} {u v : List Char} (hu : u ∈ L) (hv : v ∈ L∗) :
    u ++ v ∈ L∗ := by
  have hle : L * L∗ ≤ L∗ := mul_kstar_le_kstar
  exact hle (Language.append_mem_mul hu hv)

def Alphabet.words (A : Alphabet) : Language Char := {w | ∀ c ∈ w, c ∈ A}

namespace Alphabet

variable {A : Alphabet} {w : List Char} {c : Char}

theorem mem_words : w ∈ A.words ↔ ∀ c ∈ w, c ∈ A := Iff.rfl

theorem nil_mem_words : [] ∈ A.words := fun _ hc => absurd hc List.not_mem_nil

theorem mem_words_concat : w ++ [c] ∈ A.words ↔ w ∈ A.words ∧ c ∈ A := by
  simp [mem_words, or_imp, forall_and]

end Alphabet

namespace Nfa

/-- The words that are accepted, whether or not their characters are in the alphabet. -/
def language (n : Nfa) : Language Char := {w | n.Accepts w}

variable {m n : Nfa} {p q r : State} {u v w : List Char} {c : Char} {a : Label}

theorem mem_language : w ∈ n.language ↔ ∃ q ∈ n.accept, n.Path n.start w q := Iff.rfl

theorem Path.single (h : r ∈ n.targets q a) : n.Path q a.toList r := by
  cases a with
  | none => exact .silent h (.refl r)
  | some c => exact .read h (.refl r)

theorem Path.trans (h : n.Path p u q) (h' : n.Path q v r) : n.Path p (u ++ v) r := by
  induction h with
  | refl => exact h'
  | silent ht _ ih => exact .silent ht (ih h')
  | read ht _ ih => exact .read ht (ih h')

theorem Path.cons (ht : q ∈ n.targets p a) (h : n.Path q w r) : n.Path p (a.toList ++ w) r :=
  (Path.single ht).trans h

/-- Moves that read nothing and moves that read a character in one case. -/
@[elab_as_elim]
theorem Path.induction_on_moves {P : ∀ p w, n.Path p w r → Prop} (h : n.Path p w r)
    (refl : P r [] (.refl r))
    (move : ∀ p a q v (ht : q ∈ n.targets p a) (h : n.Path q v r), P q v h →
      P p (a.toList ++ v) (.cons ht h)) : P p w h := by
  induction h with
  | refl => exact refl
  | silent ht h ih => exact move _ none _ _ ht h (ih refl move)
  | read ht h ih => exact move _ (some _) _ _ ht h (ih refl move)

/-- The first move of a path, if there is one. -/
theorem Path.eq_or_exists_move (h : n.Path p w r) : w = [] ∧ p = r ∨
    ∃ a q v, q ∈ n.targets p a ∧ n.Path q v r ∧ w = a.toList ++ v := by
  cases h with
  | refl => exact .inl ⟨rfl, rfl⟩
  | silent ht h => exact .inr ⟨none, _, _, ht, h, rfl⟩
  | read ht h => exact .inr ⟨some _, _, _, ht, h, rfl⟩

theorem Path.exists_of_append (h : n.Path p (u ++ v) r) :
    ∃ q, n.Path p u q ∧ n.Path q v r := by
  generalize hw : u ++ v = w at h
  induction h generalizing u with
  | refl q =>
    obtain ⟨rfl, rfl⟩ := List.append_eq_nil_iff.1 hw
    exact ⟨q, .refl q, .refl q⟩
  | silent ht _ ih =>
    obtain ⟨q, hu, hv⟩ := ih hw
    exact ⟨q, .silent ht hu, hv⟩
  | @read p q r c w ht h ih =>
    cases u with
    | nil =>
      obtain rfl : v = c :: w := hw
      exact ⟨p, .refl p, .read ht h⟩
    | cons d u =>
      obtain ⟨rfl, htail⟩ := List.cons.inj hw
      obtain ⟨q, hu, hv⟩ := ih htail
      exact ⟨q, .read ht hu, hv⟩

theorem path_append_iff : n.Path p (u ++ v) r ↔ ∃ q, n.Path p u q ∧ n.Path q v r := by
  constructor
  · exact Path.exists_of_append
  · rintro ⟨q, hu, hv⟩
    exact hu.trans hv

/-- One character is read somewhere between moves that read nothing. -/
theorem path_singleton_iff : n.Path p [c] r ↔
    ∃ q, n.Path p [] q ∧ ∃ t ∈ n.targets q (some c), n.Path t [] r := by
  constructor
  · intro h
    generalize hw : [c] = w at h
    induction h with
    | refl => cases hw
    | silent ht _ ih =>
      obtain ⟨q, hq, hread⟩ := ih hw
      exact ⟨q, .silent ht hq, hread⟩
    | @read p t r d w ht h _ =>
      obtain ⟨rfl, rfl⟩ := List.cons.inj hw
      exact ⟨p, .refl p, t, ht, h⟩
  · rintro ⟨q, hq, t, ht, hr⟩
    exact hq.trans (.read ht hr)

/-- Each move of the first automaton is matched by a move of the second between related states. -/
theorem Path.simulate {R : State → State → Prop}
    (step : ∀ q q', R q q' → ∀ a, ∀ r ∈ m.targets q a, ∃ r' ∈ n.targets q' a, R r r')
    {q' : State} (h : m.Path q w r) (hR : R q q') : ∃ r', n.Path q' w r' ∧ R r r' := by
  induction h using Path.induction_on_moves generalizing q' with
  | refl => exact ⟨q', .refl q', hR⟩
  | move q a t v ht _ ih =>
    obtain ⟨t', ht', hR⟩ := step _ _ hR _ _ ht
    obtain ⟨r', hr', hR⟩ := ih hR
    exact ⟨r', .cons ht' hr', hR⟩

/-- A path of the first automaton that begins among some states is a path of the second that stays
there, up to the first move that the second does not have. -/
theorem Path.escape {S : State → Prop} {X : State → State → Prop}
    (step : ∀ q, S q → ∀ a, ∀ r ∈ m.targets q a, r ∈ n.targets q a ∧ S r ∨ a = none ∧ X q r)
    (h : m.Path q w r) (hq : S q) : n.Path q w r ∧ S r ∨
      ∃ u v t t', w = u ++ v ∧ n.Path q u t ∧ X t t' ∧ m.Path t' v r := by
  induction h using Path.induction_on_moves with
  | refl => exact .inl ⟨.refl _, hq⟩
  | move q a p v hp h ih =>
    rcases step q hq a p hp with ⟨hn, hS⟩ | ⟨rfl, hX⟩
    · rcases ih hS with ⟨h, hS⟩ | ⟨u, v, t, t', rfl, hu, hX, h⟩
      · exact .inl ⟨.cons hn h, hS⟩
      · exact .inr ⟨a.toList ++ u, v, t, t', (List.append_assoc ..).symm, .cons hn hu, hX, h⟩
    · exact .inr ⟨[], v, q, p, rfl, .refl q, hX, h⟩

/-- A path among some states whose moves are moves of the second automaton as well. -/
theorem Path.restrict {S : State → Prop}
    (step : ∀ q, S q → ∀ a, ∀ r ∈ m.targets q a, r ∈ n.targets q a ∧ S r)
    (h : m.Path q w r) (hq : S q) : n.Path q w r ∧ S r := by
  rcases h.escape (X := fun _ _ => False) (fun q hq a r hr => .inl (step q hq a r hr)) hq with
    h | ⟨-, -, -, -, -, -, hX, -⟩
  · exact h
  · exact hX.elim

theorem Path.mono (step : ∀ q a, ∀ r ∈ m.targets q a, r ∈ n.targets q a) (h : m.Path q w r) :
    n.Path q w r :=
  (h.restrict (S := fun _ => True) (fun q _ a r hr => ⟨step q a r hr, trivial⟩) trivial).1

/-- A path among some states whose moves are turned round in the second automaton. -/
theorem Path.reverse {S : State → Prop}
    (step : ∀ q, S q → ∀ a, ∀ r ∈ m.targets q a, q ∈ n.targets r a ∧ S r)
    (h : m.Path q w r) (hq : S q) : n.Path r w.reverse q := by
  induction h using Path.induction_on_moves with
  | refl => exact .refl _
  | move q a t v ht _ ih =>
    obtain ⟨hback, hS⟩ := step q hq a t ht
    have hpath := (ih hS).trans (.single hback)
    have hreverse : (a.toList ++ v).reverse = v.reverse ++ a.toList := by
      cases a <;> simp
    rwa [hreverse]

namespace WellFormed

theorem mem_of_target (hn : n.WellFormed) (h : r ∈ n.targets q a) : q ∈ n.states := by
  apply hn.source_mem q a
  apply Decidable.byContradiction
  intro hkey
  rw [targets, Std.ExtTreeMap.getD_eq_fallback hkey] at h
  exact Std.ExtTreeSet.not_mem_empty h

end WellFormed

end Nfa

end FormalLanguages
