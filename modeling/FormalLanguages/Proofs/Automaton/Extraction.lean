import FormalLanguages.Proofs.Automaton.Determinize
import FormalLanguages.Proofs.Automaton.Thompson
import FormalLanguages.Proofs.Automaton.Useful
import FormalLanguages.Requests

/-!
# The expression of an automaton, read again

The letters of an automaton may be any characters, while an expression is read for its letters and
digits only. There is an expression exactly if some word is accepted, whatever the letters are. When
it is read again it stands for the accepted words exactly if these are made of letters and digits.
-/

namespace FormalLanguages

open Std Relation Regex

namespace Dfa

variable {d : Dfa} {p q r : State} {w : List Char} {c : Char}

def Reached (d : Dfa) (q : State) : Prop := ∃ w ∈ d.alphabet.words, d.run d.start w = some q

/-- Some word over the alphabet leads from the state to one that accepts. -/
def Alive (d : Dfa) (q : State) : Prop :=
  ∃ w ∈ d.alphabet.words, ∃ f ∈ d.accept, d.run q w = some f

theorem Reached.next (h : d.Reached q) (hc : c ∈ d.alphabet) (hnext : d.next? q c = some r) :
    d.Reached r := by
  obtain ⟨w, hw, hrun⟩ := h
  exact ⟨w ++ [c], Alphabet.mem_words_concat.2 ⟨hw, hc⟩, run_concat_eq_some.2 ⟨q, hrun, hnext⟩⟩

theorem Alive.next (h : d.Alive r) (hc : c ∈ d.alphabet) (hnext : d.next? q c = some r) :
    d.Alive q := by
  obtain ⟨w, hw, f, hf, hrun⟩ := h
  exact ⟨c :: w, List.forall_mem_cons.2 ⟨hc, hw⟩, f, hf, run_cons_eq_some.2 ⟨r, hnext, hrun⟩⟩

theorem alive_of_mem_accept (h : q ∈ d.accept) : d.Alive q :=
  ⟨[], Alphabet.nil_mem_words, q, h, rfl⟩

theorem alive_start_iff : d.Alive d.start ↔ ∃ w, w ∈ d.language := by
  simp only [mem_language, Alive]

/-- A letter between a state that is reached and one that is alive is in an accepted word. -/
theorem exists_mem_language (hq : d.Reached q) (hc : c ∈ d.alphabet) (hnext : d.next? q c = some r)
    (hr : d.Alive r) : ∃ w ∈ d.language, c ∈ w := by
  obtain ⟨u, hu, hrun⟩ := hq
  obtain ⟨v, hv, f, hf, hrun'⟩ := hr
  have hcv : c :: v ∈ d.alphabet.words := List.forall_mem_cons.2 ⟨hc, hv⟩
  refine ⟨u ++ c :: v, mem_language.2 ⟨List.forall_mem_append.2 ⟨hu, hcv⟩, f, hf, ?_⟩, by simp⟩
  exact run_append_eq_some.2 ⟨q, hrun, run_cons_eq_some.2 ⟨r, hnext, hrun'⟩⟩

/-- The automaton without the letters that no expression can have. -/
def legible (d : Dfa) : Dfa := { d with alphabet := d.alphabet.filter Char.isAlphanum }

theorem mem_alphabet_legible : c ∈ d.legible.alphabet ↔ c ∈ d.alphabet ∧ c.isAlphanum := by
  rw [← ExtTreeSet.mem_toList, legible, ExtTreeSet.toList_filter, List.mem_filter,
    ExtTreeSet.mem_toList]

theorem language_legible (h : ∀ w ∈ d.language, ∀ c ∈ w, c.isAlphanum) :
    d.legible.language = d.language := by
  ext w
  constructor
  · intro hw
    obtain ⟨hw, haccept⟩ := mem_language.1 hw
    exact mem_language.2 ⟨fun c hc => (mem_alphabet_legible.1 (hw c hc)).1, haccept⟩
  · intro hmem
    obtain ⟨hw, haccept⟩ := mem_language.1 hmem
    exact mem_language.2 ⟨fun c hc => mem_alphabet_legible.2 ⟨hw c hc, h w hmem c hc⟩, haccept⟩

end Dfa

namespace Gnfa

open Edges

variable {d : Dfa} {g : Gnfa} {p q r start accept : State} {w : List Char} {c : Char}

theorem linked_framed : (framed d start accept).Linked p r ↔ (p = start ∧ r = d.start) ∨
    (p ∈ d.states ∧ ∃ c ∈ d.alphabet, d.next? p c = some r) ∨
      (p ∈ d.states ∧ p ∈ d.accept ∧ r = accept) := by
  show (∃ t, (Edges.addAll ∅ (dfaEdges d start accept))[(p, r)]? = some t) ↔ _
  rw [exists_getElem?_addAll]
  constructor
  · rintro (⟨t, ht⟩ | ⟨e, he, hends⟩)
    · simp at ht
    · rcases mem_dfaEdges.1 he with rfl | ⟨q, hq, ⟨c, hc, r', hnext, rfl⟩ | ⟨haccept, rfl⟩⟩
      · obtain ⟨rfl, rfl⟩ := Prod.mk.inj hends
        exact .inl ⟨rfl, rfl⟩
      · obtain ⟨rfl, rfl⟩ := Prod.mk.inj hends
        exact .inr (.inl ⟨hq, c, hc, hnext⟩)
      · obtain ⟨rfl, rfl⟩ := Prod.mk.inj hends
        exact .inr (.inr ⟨hq, haccept, rfl⟩)
  · rintro (⟨rfl, rfl⟩ | ⟨hp, c, hc, hnext⟩ | ⟨hp, haccept, rfl⟩)
    · exact .inr ⟨_, mem_dfaEdges.2 (.inl rfl), rfl⟩
    · exact .inr ⟨_, mem_dfaEdges.2 (.inr ⟨p, hp, .inl ⟨c, hc, r, hnext, rfl⟩⟩), rfl⟩
    · exact .inr ⟨_, mem_dfaEdges.2 (.inr ⟨p, hp, .inr ⟨haccept, rfl⟩⟩), rfl⟩

theorem closed_framed (hd : d.WellFormed) : (framed d start accept).Closed := by
  intro p r hlinked
  rw [mem_states_framed]
  rcases linked_framed.1 hlinked with ⟨-, rfl⟩ | ⟨-, c, -, hnext⟩ | ⟨-, -, rfl⟩
  · exact .inr (.inr hd.start_mem)
  · exact .inr (.inr (hd.target_mem p c r hnext))
  · exact .inl rfl

/-- On the way to the accept state of the frame every state is alive. -/
theorem alive_of_reflTransGen (hd : d.WellFormed) (h : Apart d start accept)
    (hway : ReflTransGen (framed d start accept).Linked q accept) (hq : q ∈ d.states) :
    d.Alive q := by
  induction hway using ReflTransGen.head_induction_on with
  | refl => exact absurd hq h.accept_not_mem
  | @head q r hlinked _ ih =>
    rcases linked_framed.1 hlinked with ⟨rfl, -⟩ | ⟨-, c, hc, hnext⟩ | ⟨-, haccept, -⟩
    · exact absurd hq h.start_not_mem
    · exact (ih (hd.target_mem q c r hnext)).next hc hnext
    · exact Dfa.alive_of_mem_accept haccept

theorem transGen_of_run (hd : d.WellFormed) (hq : q ∈ d.states) (hw : w ∈ d.alphabet.words)
    (hr : r ∈ d.accept) (hrun : d.run q w = some r) :
    TransGen (framed d start accept).Linked q accept := by
  induction w generalizing q with
  | nil =>
    obtain rfl := Option.some.inj hrun
    exact .single (linked_framed.2 (.inr (.inr ⟨hq, hr, rfl⟩)))
  | cons c w ih =>
    obtain ⟨hc, hw⟩ := List.forall_mem_cons.1 hw
    obtain ⟨s, hnext, hrun⟩ := Dfa.run_cons_eq_some.1 hrun
    exact .head (linked_framed.2 (.inr (.inl ⟨hq, c, hc, hnext⟩)))
      (ih (hd.target_mem q c s hnext) hw hrun)

theorem transGen_framed_iff (hd : d.WellFormed) (h : Apart d start accept) :
    TransGen (framed d start accept).Linked start accept ↔ ∃ w, w ∈ d.language := by
  rw [← Dfa.alive_start_iff]
  constructor
  · intro hway
    obtain ⟨r, hlinked, hrest⟩ := TransGen.head'_iff.1 hway
    rcases linked_framed.1 hlinked with ⟨-, rfl⟩ | ⟨hstart, -⟩ | ⟨hstart, -⟩
    · exact alive_of_reflTransGen hd h hrest hd.start_mem
    · exact absurd hstart h.start_not_mem
    · exact absurd hstart h.start_not_mem
  · rintro ⟨w, hw, f, hf, hrun⟩
    exact .head (linked_framed.2 (.inl ⟨rfl, rfl⟩)) (transGen_of_run hd hd.start_mem hw hf hrun)

theorem labelsAt_dfaEdges {ends : State × State} : labelsAt (dfaEdges d start accept) ends =
    labelsAt [((start, d.start), Written.empty)] ends ++
      d.states.toList.flatMap fun q => labelsAt (edgesFrom d accept q) ends := by
  rw [dfaEdges, ← List.singleton_append, labelsAt_append, labelsAt_flatMap]

theorem labelsAt_edgesFrom_legible
    (hletters : ∀ c ∈ d.alphabet, d.next? p c = some r → c.isAlphanum) :
    labelsAt (edgesFrom d.legible accept q) (p, r) = labelsAt (edgesFrom d accept q) (p, r) := by
  have halphabet : d.legible.alphabet.toList = d.alphabet.toList.filter Char.isAlphanum :=
    ExtTreeSet.toList_filter
  have hnext : d.legible.next? = d.next? := rfl
  have haccept : d.legible.accept = d.accept := rfl
  rw [edgesFrom, edgesFrom, halphabet, hnext, haccept, labelsAt_append, labelsAt_append]
  refine congrArg (· ++ _) ?_
  rw [labelsAt, labelsAt, List.filterMap_filter, List.filterMap_filterMap, List.filterMap_filterMap]
  refine List.filterMap_congr fun c hc => ?_
  by_cases hletter : c.isAlphanum
  · rw [if_pos hletter]
  · rw [if_neg hletter]
    cases hmove : d.next? q c with
    | none => rfl
    | some s =>
      have hne : (q, s) ≠ (p, r) := by
        rintro ⟨⟩
        exact hletter (hletters c (ExtTreeSet.mem_toList.1 hc) hmove)
      simp [hne]

theorem labelsAt_dfaEdges_legible
    (hletters : ∀ c ∈ d.alphabet, d.next? p c = some r → c.isAlphanum) :
    labelsAt (dfaEdges d.legible start accept) (p, r) =
      labelsAt (dfaEdges d start accept) (p, r) := by
  have hedges : ∀ q ∈ d.states.toList, labelsAt (edgesFrom d.legible accept q) (p, r) =
      labelsAt (edgesFrom d accept q) (p, r) := fun _ _ => labelsAt_edgesFrom_legible hletters
  rw [labelsAt_dfaEdges, labelsAt_dfaEdges, ← List.flatMap_congr hedges]
  rfl

/-- If all accepted words are made of letters and digits, then no other character stands on a way
from the start to the accept state. -/
theorem agree_legible (hd : d.WellFormed) (h : Apart d start accept)
    (hletters : ∀ w ∈ d.language, ∀ c ∈ w, c.isAlphanum) :
    Agree (fun p => p ∈ d.states → d.Reached p) (fun r => r ∈ d.states → d.Alive r)
      (framed d start accept) (framed d.legible start accept) where
  states_eq := rfl
  start_eq := rfl
  accept_eq := rfl
  linked p r hlinked := by
    rw [linked_framed] at hlinked ⊢
    refine hlinked.imp_right (Or.imp_left (And.imp_right ?_))
    rintro ⟨c, hc, hnext⟩
    exact ⟨c, (Dfa.mem_alphabet_legible.1 hc).1, hnext⟩
  forward p r hlinked hp hr := by
    rcases linked_framed.1 hlinked with ⟨-, rfl⟩ | ⟨hp', c, hc, hnext⟩ | ⟨-, -, rfl⟩
    · exact ⟨[], Alphabet.nil_mem_words, rfl⟩
    · exact (hp hp').next hc hnext
    · exact absurd hr h.accept_not_mem
  backward p r hlinked hr hp := by
    rcases linked_framed.1 hlinked with ⟨rfl, -⟩ | ⟨-, c, hc, hnext⟩ | ⟨-, haccept, -⟩
    · exact absurd hp h.start_not_mem
    · exact (hr (hd.target_mem p c r hnext)).next hc hnext
    · exact Dfa.alive_of_mem_accept haccept
  label_eq p r hp hr := by
    have hletter : ∀ c ∈ d.alphabet, d.next? p c = some r → c.isAlphanum := by
      intro c hc hnext
      have hreached := hp (hd.source_mem p c r hnext)
      have halive := hr (hd.target_mem p c r hnext)
      obtain ⟨w, hw, hcw⟩ := Dfa.exists_mem_language hreached hc hnext halive
      exact hletters w hw c hcw
    rw [framed, framed, getElem?_addAll, getElem?_addAll, labelsAt_dfaEdges_legible hletter]

/-! ### The expression -/

theorem exists_framed_of_ofDfa (h : ofDfa d ≠ .error .outOfStates) : ∃ start accept,
    ofDfa d = .ok (framed d start accept) ∧ Apart d start accept ∧
      ∀ q ∈ d.states, q + 2 ≤ State.last := by
  by_cases hroom : (StateSet.greatest? d.states).getD 0 + 2 ≤ State.last
  · refine ⟨_, _, if_pos hroom, apart_top d, fun q hq => ?_⟩
    have hle := le_top hq
    lia
  · exact absurd (if_neg hroom) h

theorem suitable_legible (hd : d.WellFormed) (hroom : ∀ q ∈ d.states, q + 2 ≤ State.last) :
    Suitable d.legible where
  start_mem := hd.start_mem
  accept_mem := hd.accept_mem
  target_mem q _ c _ r hnext := hd.target_mem q c r hnext
  isAlphanum _ hc := (Dfa.mem_alphabet_legible.1 hc).2
  room := hroom

/-- There is an expression exactly if some word is accepted, and it stands for the accepted words if
these are made of letters and digits. -/
theorem toRegex?_framed (hd : d.WellFormed) (h : Apart d start accept)
    (hroom : ∀ q ∈ d.states, q + 2 ≤ State.last) :
    ((framed d start accept).toRegex? = none ↔ ∀ w, w ∉ d.language) ∧
      ((∀ w ∈ d.language, ∀ c ∈ w, c.isAlphanum) → ∀ t, (framed d start accept).toRegex? = some t →
        Written.IsLabel t ∧ Written.wordsOf t = d.language) := by
  have hclosed : (framed d start accept).Closed := closed_framed hd
  refine ⟨?_, fun hletters t ht => ?_⟩
  · rw [hclosed.toRegex?_eq_none_iff, ← not_exists]
    exact not_congr (transGen_framed_iff hd h)
  have hsuitable := suitable_legible hd hroom
  have hapart : Apart d.legible start accept :=
    ⟨h.start_not_mem, h.accept_not_mem, h.start_ne_accept⟩
  have hagree := (agree_legible hd h hletters).toRegex?_eq (absurd · h.start_not_mem)
    (absurd · h.accept_not_mem)
  obtain ⟨hlabel, hwords⟩ := (hsuitable.wellFormed_framed hapart).toRegex?.2 t (hagree ▸ ht)
  rw [hwords, hsuitable.language_framed hapart, Dfa.language_legible hletters]
  exact ⟨hlabel, rfl⟩

end Gnfa

theorem Dfa.WellFormed.toRegex? {d : Dfa} (hd : d.WellFormed)
    (h : d.toRegex? ≠ .error .outOfStates) : ∃ out, d.toRegex? = .ok out ∧
      (out = none ↔ ∀ w, w ∉ d.language) ∧
      ((∀ w ∈ d.language, ∀ c ∈ w, c.isAlphanum) → ∀ t, out = some t →
        Written.IsLabel t ∧ Written.wordsOf t = d.language) := by
  have hok : Gnfa.ofDfa d ≠ .error .outOfStates := by
    intro herror
    rw [Dfa.toRegex?, herror] at h
    exact h rfl
  obtain ⟨start, accept, hframed, hapart, hroom⟩ := Gnfa.exists_framed_of_ofDfa hok
  refine ⟨_, ?_, Gnfa.toRegex?_framed hd hapart hroom⟩
  rw [Dfa.toRegex?, hframed]
  rfl

/-! ### Reading the expression again -/

namespace Regex

variable {t w : List Char} {parsed : Option Regex}

theorem isAlphanum_of_mem_meaning (h : parse t = .ok parsed) (hw : w ∈ meaning parsed) :
    ∀ c ∈ w, c.isAlphanum := by
  cases parsed with
  | none =>
    obtain rfl : w = [] := hw
    simp
  | some r => exact (readable_of_parse h).isAlphanum_of_matches hw

end Regex

namespace Nfa

variable {A : Alphabet} {t w : List Char} {m : Nfa} {s s' : Supply}

theorem isAlphanum_of_ofText (h : ofText A t s = .ok (m, s')) (hw : m.Accepts w) :
    ∀ c ∈ w, c.isAlphanum := by
  obtain ⟨_, _, hlift, -⟩ := Fresh.bind_eq_ok_iff.1 h
  obtain ⟨parsed, hparse, -⟩ := exists_of_bind_eq_ok hlift
  obtain ⟨m', s₁, hok, hmade⟩ := gives_ofText A hparse (by rw [h]; simp)
  obtain ⟨rfl, -⟩ := Prod.mk.inj (Except.ok.inj (h.symm.trans hok))
  exact isAlphanum_of_mem_meaning hparse ((Language.ext_iff.1 hmade.language_eq w).1 hw)

/-- The letters on a path are labels of moves. -/
theorem Path.mem_labels {n : Nfa} {q r : State} (h : n.Path q w r) :
    ∀ c ∈ w, some c ∈ n.moves.toList.map (·.1.2) := by
  induction h with
  | refl => simp
  | silent _ _ ih => exact ih
  | @read q r t c w hr _ ih =>
    obtain ⟨rs, hmove, -⟩ := exists_mem_moves hr
    exact List.forall_mem_cons.2 ⟨List.mem_map_of_mem (f := fun e => e.1.2) hmove, ih⟩

theorem gives_ofText_of_isLabel (h : Written.IsLabel t) :
    Fresh.Gives s (ofText A t) fun m _ => m.language = Written.wordsOf t := by
  obtain ⟨r, hr, -, rfl⟩ := h
  rw [Written.wordsOf_print hr]
  exact (gives_ofText A (parse_print hr)).mono fun m _ hm => hm.language_eq

end Nfa

namespace Requests

/-- There is no expression exactly if no word over the alphabet is accepted. If there is one, then the
automaton of its text accepts the same words over the alphabet exactly if the accepted words are
made of letters and digits. -/
theorem automatonToRegex_equivalent_iff {alphabet start accept edges : List Char} {n : Nfa}
    (hn : LineFormat.readNfa alphabet start accept edges = .ok n)
    (hroom : automatonToRegex alphabet start accept edges ≠ .error .outOfStates) :
    ∃ out, automatonToRegex alphabet start accept edges = .ok out ∧
      (out = none ↔ ∀ w ∈ n.alphabet.words, ¬ n.Accepts w) ∧
      ∀ t, out = some t → ∀ s, Nfa.ofText n.alphabet t s ≠ .error .outOfStates →
        ((∃ m s', Nfa.ofText n.alphabet t s = .ok (m, s') ∧
          ∀ w ∈ n.alphabet.words, m.Accepts w ↔ n.Accepts w) ↔
        ∀ w ∈ n.alphabet.words, n.Accepts w → ∀ c ∈ w, c.isAlphanum) := by
  have hrequest : automatonToRegex alphabet start accept edges = n.determinize.toRegex? := by
    rw [automatonToRegex, hn]
    rfl
  have hmem : ∀ w, w ∈ n.determinize.language ↔ w ∈ n.alphabet.words ∧ n.Accepts w :=
    Language.ext_iff.1 n.language_determinize
  rw [hrequest] at hroom ⊢
  obtain ⟨out, hout, hnone, hsome⟩ := Nfa.wellFormed_determinize.toRegex? hroom
  refine ⟨out, hout, hnone.trans ?_, fun t ht s hs => ⟨?_, fun hletters => ?_⟩⟩
  · simp only [hmem, not_and]
  · rintro ⟨m, s', hm, hsame⟩ w hw haccepts
    exact Nfa.isAlphanum_of_ofText hm ((hsame w hw).2 haccepts)
  · have hlegible : ∀ w ∈ n.determinize.language, ∀ c ∈ w, c.isAlphanum := fun w hw =>
      hletters w ((hmem w).1 hw).1 ((hmem w).1 hw).2
    obtain ⟨hlabel, hwords⟩ := hsome hlegible t ht
    obtain ⟨m, s', hm, hlanguage⟩ := Nfa.gives_ofText_of_isLabel hlabel hs
    refine ⟨m, s', hm, fun w hw => ?_⟩
    rw [hwords] at hlanguage
    exact (Language.ext_iff.1 hlanguage w).trans ((hmem w).trans (and_iff_right hw))

/-- A hyphen of the alphabet that no edge reads does no harm. -/
theorem automatonToRegex_unused_hyphen : ∃ n,
    LineFormat.readNfa "a,-".toList "0".toList "1".toList "0 1 a".toList = .ok n ∧
    automatonToRegex "a,-".toList "0".toList "1".toList "0 1 a".toList = .ok (some ['a']) ∧
    n.alphabet = {'a', '-'} ∧ ∃ m s', Nfa.ofText n.alphabet ['a'] {} = .ok (m, s') ∧
      ∀ w ∈ n.alphabet.words, m.Accepts w ↔ n.Accepts w := by
  have hout : automatonToRegex "a,-".toList "0".toList "1".toList "0 1 a".toList =
      .ok (some ['a']) := by decide +kernel
  have hroom : automatonToRegex "a,-".toList "0".toList "1".toList "0 1 a".toList ≠
      .error .outOfStates := by
    rw [hout]
    simp
  have hread : (LineFormat.readNfa "a,-".toList "0".toList "1".toList "0 1 a".toList).map
      (fun n => (n.alphabet.toList, n.moves.toList.map (·.1.2))) =
        .ok (({'a', '-'} : Alphabet).toList, [some 'a']) := by decide +kernel
  obtain ⟨n, hn, hfacts⟩ := exists_of_map_eq_ok hread
  obtain ⟨halphabet, hlabels⟩ := Prod.mk.inj hfacts
  have halphabet := ExtTreeSet.toList_inj.1 halphabet
  obtain ⟨out, hout', -, hsome⟩ := automatonToRegex_equivalent_iff hn hroom
  obtain rfl := Except.ok.inj (hout.symm.trans hout')
  have htext : Nfa.ofText n.alphabet ['a'] {} ≠ .error .outOfStates := by
    rw [halphabet]
    decide +kernel
  refine ⟨n, hn, hout, halphabet, (hsome ['a'] rfl {} htext).2 fun w _ hw c hc => ?_⟩
  obtain ⟨q, -, hpath⟩ := hw
  have hlabel := hpath.mem_labels c hc
  rw [hlabels, List.mem_singleton] at hlabel
  obtain rfl := Option.some.inj hlabel
  decide

/-- The text of the word that is a hyphen is read as the empty word. -/
theorem automatonToRegex_hyphen : ∃ n,
    LineFormat.readNfa "-".toList "0".toList "1".toList "0 1 -".toList = .ok n ∧
    automatonToRegex "-".toList "0".toList "1".toList "0 1 -".toList = .ok (some ['-']) ∧
    ['-'] ∈ n.alphabet.words ∧ n.Accepts ['-'] ∧
    ∃ m s', Nfa.ofText n.alphabet ['-'] {} = .ok (m, s') ∧ ¬ m.Accepts ['-'] := by
  have hread : (LineFormat.readNfa "-".toList "0".toList "1".toList "0 1 -".toList).map
      (fun n => (n.alphabet.toList, n.determinize.accepts ['-'])) =
        .ok (({'-'} : Alphabet).toList, true) := by decide +kernel
  obtain ⟨n, hn, hfacts⟩ := exists_of_map_eq_ok hread
  obtain ⟨halphabet, haccepts⟩ := Prod.mk.inj hfacts
  have halphabet := ExtTreeSet.toList_inj.1 halphabet
  have hlanguage : ['-'] ∈ n.alphabet.words ⊓ n.language := n.language_determinize ▸ haccepts
  have htext : Nfa.ofText n.alphabet ['-'] {} ≠ .error .outOfStates := by
    rw [halphabet]
    decide +kernel
  have hparse : parse ['-'] = .ok none := by decide +kernel
  obtain ⟨m, s', hm, hmade⟩ := Nfa.gives_ofText n.alphabet hparse htext
  refine ⟨n, hn, by decide +kernel, hlanguage.1, hlanguage.2, m, s', hm, fun hw => ?_⟩
  have hnil : ['-'] ∈ meaning none := hmade.language_eq ▸ hw
  cases hnil

end Requests

end FormalLanguages
