import FormalLanguages.Proofs.Grammar.Reading
import FormalLanguages.Proofs.Pushdown.Naming
import FormalLanguages.Proofs.Pushdown.Runs

/-!
# Pushdown automata read from a text

An automaton that is read has the states, symbols and moves of its lines. A token is written as
anything but blanks and the two glyphs for the empty word; there may be bars in it, and blanks
between its parts.
-/

namespace FormalLanguages

open Std
open Text (cut fields trim)

namespace LineFormat

variable {start accept moves line s : List Char} {p : Pushdown} {l : MoveLine}
  {x : String}

/-- A name that can be written as a token or as a stack symbol. -/
structure IsToken (x : String) : Prop where
  ne_nil : x.toList ≠ []
  normal : normalizeEpsilon x.toList = x.toList
  not_epsilon : x ≠ epsilonSymbol

/-- Only a name without blanks and bars can be written in a grammar as well. -/
theorem IsToken.isWord_iff (hx : IsToken x) : Grammar.IsWord x ↔
    '|' ∉ x.toList ∧ ∀ c ∈ x.toList, ¬ Text.isBlank c :=
  ⟨fun h => ⟨h.not_bar, h.not_blank⟩, fun h => ⟨hx.ne_nil, h.2, h.1, hx.normal⟩⟩

theorem isToken_of_readOptional (hs : trim s ≠ []) (h : readOptional s = some x) : IsToken x := by
  unfold readOptional at h
  dsimp only at h
  split at h
  · cases h
  · next hne =>
    obtain rfl := Option.some.inj h
    refine ⟨?_, ?_, fun h => hne (String.ofList_injective h)⟩
    · rw [String.toList_ofList]
      intro hnil
      match ht : trim s with
      | [] => exact hs ht
      | [c] =>
        rw [ht, normalizeEpsilon] at hnil
        split at hnil <;> cases hnil
      | _ :: _ :: _ =>
        rw [ht] at hnil
        cases hnil
    · rw [String.toList_ofList, Grammar.normalizeEpsilon_normalizeEpsilon]

theorem isToken_of_readMove? (h : readMove? line = some l) (hread : l.read = some x) :
    IsToken x := by
  unfold readMove? at h
  split at h
  · next source target label heq =>
    simp only [Option.bind_eq_bind, Option.bind_eq_some_iff, Prod.exists] at h
    obtain ⟨before, push, -, read, pop, -, h⟩ := h
    split at h
    · cases h
    · next hany =>
      obtain rfl := Option.some.inj h
      simp only [List.any_cons, Bool.or_eq_true, decide_eq_true_eq, not_or] at hany
      exact isToken_of_readOptional hany.1 hread
  · cases h

/-- An automaton that was read is made of its start, its accept states and its lines, whose names
are numbered in some way. -/
theorem exists_of_readPushdown (h : readPushdown start accept moves = .ok p) :
    ∃ number ls, (Text.contentLines moves).mapM readMove? = some ls ∧
      p = assembled number (trim start) (Text.items accept) ls := by
  obtain ⟨-, ls, hls, -, rfl⟩ := readPushdown_eq_ok_iff.1 h
  exact ⟨_, ls, hls, rfl⟩

end LineFormat

namespace Pushdown

open LineFormat

variable {start accept moves : List Char} {p : Pushdown} {t : String}

theorem WellFormed.addMoves (hp : p.WellFormed) (ms : List Move) : (p.addMoves ms).WellFormed :=
  List.foldlRecOn ms _ hp fun _ h m _ => h.addMove m

theorem WellFormed.foldl_addAccept {α : Type} (hp : p.WellFormed) (number : α → State)
    (names : List α) : (names.foldl (fun p name => p.addAccept (number name)) p).WellFormed :=
  List.foldlRecOn names _ hp fun _ h name _ => h.addAccept (number name)

theorem moves_foldl_addAccept {α : Type} (number : α → State) (names : List α) :
    (names.foldl (fun p name => p.addAccept (number name)) p).moves = p.moves :=
  List.foldlRecOn (motive := fun q : Pushdown => q.moves = p.moves) names _ rfl fun _ h _ _ => h

theorem wellFormed_of_readPushdown (h : readPushdown start accept moves = .ok p) :
    p.WellFormed := by
  obtain ⟨number, ls, -, rfl⟩ := exists_of_readPushdown h
  exact ((wellFormed_ofStart _).foldl_addAccept number _).addMoves _

/-- Each move is that of a line. -/
theorem exists_line_of_mem_moves (h : readPushdown start accept moves = .ok p) {m : Move}
    (hm : m ∈ p.moves) :
    ∃ line l q r, readMove? line = some l ∧ l.toMove q r = m := by
  obtain ⟨number, ls, hls, rfl⟩ := exists_of_readPushdown h
  rw [assembled, mem_moves_addMoves, moves_foldl_addAccept] at hm
  obtain ⟨l, hl, rfl⟩ := List.mem_map.1 (hm.resolve_right ExtTreeSet.not_mem_empty)
  obtain ⟨line, -, hline⟩ := exists_left_of_forall₂ (mapM_eq_some_iff.1 hls) hl
  exact ⟨line, l, _, _, hline, rfl⟩

theorem named_of_readPushdown (h : readPushdown start accept moves = .ok p) : p.Named := by
  intro m hm x hx
  obtain ⟨-, l, q, r, -, rfl⟩ := exists_line_of_mem_moves h hm
  rcases hx with hx | hx
  · obtain ⟨name, -, rfl⟩ := Option.map_eq_some_iff.1 hx
    exact ⟨name, rfl⟩
  · obtain ⟨name, -, rfl⟩ := Option.map_eq_some_iff.1 hx
    exact ⟨name, rfl⟩

theorem isToken_of_readPushdown (h : readPushdown start accept moves = .ok p) (ht : t ∈ p.input) :
    IsToken t := by
  obtain ⟨m, hm, hread⟩ := ((wellFormed_of_readPushdown h).mem_input_iff t).1 ht
  obtain ⟨line, l, q, r, hline, rfl⟩ := exists_line_of_mem_moves h hm
  exact isToken_of_readMove? hline hread

end Pushdown

end FormalLanguages
