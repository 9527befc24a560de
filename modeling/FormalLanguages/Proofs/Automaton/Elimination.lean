import FormalLanguages.Proofs.Automaton.Edges
import FormalLanguages.Proofs.Automaton.Runs
import FormalLanguages.Proofs.Sets

/-!
# Elimination keeps the words between the remaining states

An edge stands for the words of its label. When a state is eliminated, the paths between any two
other states spell the same words as before, since a stay in the eliminated state is a path of two
edges with loops in between. Hence the order of elimination does not matter, and at the end the edge
from the start to the accept state stands for the language of the automaton.
-/

namespace FormalLanguages

open Std Computability Regex Written

namespace Edges

/-- `edges.Path p w r`: some path from `p` to `r` spells the word `w`. -/
inductive Path (edges : Edges) : State → List Char → State → Prop
  | refl (q) : Path edges q [] q
  | step {p q r u v} : u ∈ edges.language p q → Path edges q v r → Path edges p (u ++ v) r

variable {edges : Edges} {p q r : State} {u v w : List Char}

/-! ### Paths -/

theorem Path.trans (h : edges.Path p u q) (h' : edges.Path q v r) : edges.Path p (u ++ v) r := by
  induction h with
  | refl => exact h'
  | step hu _ ih =>
    rw [List.append_assoc]
    exact .step hu (ih h')

theorem Path.single (h : u ∈ edges.language p q) : edges.Path p u q := by
  simpa using Path.step h (.refl q)

theorem Path.eq_or_exists_step (h : edges.Path p w r) : w = [] ∧ p = r ∨
    ∃ q u v, u ∈ edges.language p q ∧ edges.Path q v r ∧ w = u ++ v := by
  cases h with
  | refl => exact .inl ⟨rfl, rfl⟩
  | step hu h => exact .inr ⟨_, _, _, hu, h, rfl⟩

theorem path_of_mem_kstar (h : w ∈ (edges.language q q)∗) : edges.Path q w q := by
  obtain ⟨ws, rfl, hws⟩ := Language.mem_kstar.1 h
  clear h
  induction ws with
  | nil => exact .refl q
  | cons u ws ih =>
    obtain ⟨hu, hws⟩ := List.forall_mem_cons.1 hws
    exact .step hu (ih hws)

end Edges

namespace Gnfa

variable {g : Gnfa} {p q r : State} {u v w : List Char} {a b : List Char}

/-! ### Eliminating one state -/

theorem mem_incoming : (p, a) ∈ g.incoming q ↔ g.edges[(p, q)]? = some a ∧ p ≠ q := by
  simp only [incoming, List.mem_filterMap, Prod.exists,
    Edges.mem_toList_iff]
  grind

theorem mem_outgoing : (r, b) ∈ g.outgoing q ↔ g.edges[(q, r)]? = some b ∧ r ≠ q := by
  simp only [outgoing, List.mem_filterMap, Prod.exists,
    Edges.mem_toList_iff]
  grind

theorem detour_spec (h : g.edges.Labelled) (ha : IsLabel a) (hb : IsLabel b) :
    IsLabel (detour g.edges[(q, q)]? a b) ∧ wordsOf (detour g.edges[(q, q)]? a b) =
      wordsOf a * (g.edges.language q q)∗ * wordsOf b := by
  cases hloop : g.edges[(q, q)]? with
  | none =>
    rw [Edges.language_of_none hloop, kstar_zero, mul_one]
    exact concat_spec ha hb
  | some x =>
    have hx := star_spec (h _ x hloop)
    have hstar := concat_spec ha hx.1
    rw [Edges.language_of_some hloop, ← hx.2, ← hstar.2]
    exact concat_spec hstar.1 hb

def kept (g : Gnfa) (q : State) : Edges := g.edges.without q

theorem getElem?_kept_eq_some : (g.kept q)[(p, r)]? = some a ↔
    (p ≠ q ∧ r ≠ q) ∧ g.edges[(p, r)]? = some a := Edges.getElem?_without

/-- The edges that take the place of the paths of two edges through a state. -/
def detours (g : Gnfa) (q : State) : List Edge :=
  (g.incoming q).flatMap fun (p, a) => (g.outgoing q).map fun (r, b) =>
    ((p, r), detour g.edges[(q, q)]? a b)

theorem mem_detours {e : Edge} : e ∈ g.detours q ↔
    ∃ p r a b, (g.edges[(p, q)]? = some a ∧ p ≠ q) ∧ (g.edges[(q, r)]? = some b ∧ r ≠ q) ∧
      ((p, r), detour g.edges[(q, q)]? a b) = e := by
  simp only [detours, List.mem_flatMap, List.mem_map, Prod.exists, mem_incoming, mem_outgoing]
  grind

/-- The words on a path of two edges through the eliminated state are put to the edge between its
ends. -/
theorem labelled_eliminate (h : g.edges.Labelled) (q : State) :
    (g.eliminate q).edges.Labelled ∧ ∀ p r w, w ∈ (g.eliminate q).edges.language p r ↔
      (p ≠ q ∧ r ≠ q) ∧ (w ∈ g.edges.language p r ∨
        w ∈ g.edges.language p q * (g.edges.language q q)∗ * g.edges.language q r) := by
  have hkept : (g.kept q).Labelled := by
    rintro ⟨p, r⟩ t ht
    exact h _ t (getElem?_kept_eq_some.1 ht).2
  have hdetours : ∀ e ∈ g.detours q, IsLabel e.2 := by
    intro e he
    obtain ⟨p, r, a, b, ⟨ha, -⟩, ⟨hb, -⟩, rfl⟩ := mem_detours.1 he
    exact (detour_spec h (h _ a ha) (h _ b hb)).1
  obtain ⟨hlabelled, hmem⟩ := hkept.addAll hdetours
  refine ⟨hlabelled, fun p r w => (hmem p r w).trans ?_⟩
  rw [and_or_left]
  refine or_congr ?_ ?_
  · constructor
    · rintro ⟨t, ht, hw⟩
      obtain ⟨hne, ht⟩ := getElem?_kept_eq_some.1 ht
      exact ⟨hne, t, ht, hw⟩
    · rintro ⟨hne, t, ht, hw⟩
      exact ⟨t, getElem?_kept_eq_some.2 ⟨hne, ht⟩, hw⟩
  · constructor
    · rintro ⟨e, he, hends, hw⟩
      obtain ⟨p', r', a, b, ⟨ha, hp⟩, ⟨hb, hr⟩, rfl⟩ := mem_detours.1 he
      obtain ⟨rfl, rfl⟩ := Prod.mk.inj hends
      rw [(detour_spec h (h _ a ha) (h _ b hb)).2] at hw
      rw [Edges.language_of_some ha, Edges.language_of_some hb]
      exact ⟨⟨hp, hr⟩, hw⟩
    · rintro ⟨⟨hp, hr⟩, hw⟩
      have hparts := hw
      obtain ⟨_, ⟨_, ⟨a, ha, -⟩, _, -, -⟩, _, ⟨b, hb, -⟩, -⟩ := hparts
      rw [Edges.language_of_some ha, Edges.language_of_some hb,
        ← (detour_spec h (h _ a ha) (h _ b hb)).2] at hw
      exact ⟨_, mem_detours.2 ⟨p, r, a, b, ⟨ha, hp⟩, ⟨hb, hr⟩, rfl⟩, rfl, hw⟩

/-- A path from the eliminated state leaves it for another one after some loops, and on a path from
another state each stay in the eliminated one is part of a new edge. -/
theorem path_eliminate (h : g.edges.Labelled) (hr : r ≠ q) (hpath : g.edges.Path p w r) :
    (p = q → ∃ u v s, s ≠ q ∧ u ∈ (g.edges.language q q)∗ * g.edges.language q s ∧
      (g.eliminate q).edges.Path s v r ∧ u ++ v = w) ∧
    (p ≠ q → (g.eliminate q).edges.Path p w r) := by
  have hmem := (labelled_eliminate h q).2
  induction hpath with
  | refl r => exact ⟨fun heq => absurd heq hr, fun _ => .refl r⟩
  | @step p s r u w hu _ ih =>
    obtain ⟨ihq, ihne⟩ := ih hr
    by_cases hs : s = q
    · obtain ⟨x, y, s', hs', ⟨x₁, hx₁, x₂, hx₂, rfl⟩, hpath, rfl⟩ := ihq hs
      subst hs
      constructor
      · rintro rfl
        refine ⟨u ++ x₁ ++ x₂, y, s', hs', ?_, hpath, by simp⟩
        exact ⟨u ++ x₁, append_mem_kstar hu hx₁, x₂, hx₂, rfl⟩
      · intro hp
        rw [← List.append_assoc, ← List.append_assoc]
        refine .step ((hmem p s' _).2 ⟨⟨hp, hs'⟩, .inr ?_⟩) hpath
        exact ⟨u ++ x₁, ⟨u, hu, x₁, hx₁, rfl⟩, x₂, hx₂, rfl⟩
    · constructor
      · rintro rfl
        exact ⟨u, w, s, hs, ⟨[], Language.nil_mem_kstar _, u, hu, rfl⟩, ihne hs, rfl⟩
      · intro hp
        exact .step ((hmem p s u).2 ⟨⟨hp, hs⟩, .inl hu⟩) (ihne hs)

theorem path_of_eliminate (h : g.edges.Labelled) (hpath : (g.eliminate q).edges.Path p w r) :
    g.edges.Path p w r := by
  induction hpath with
  | refl => exact .refl _
  | step hu _ ih =>
    refine Edges.Path.trans ?_ ih
    obtain ⟨-, hu | ⟨_, ⟨x, hx, y, hy, rfl⟩, z, hz, rfl⟩⟩ := ((labelled_eliminate h q).2 _ _ _).1 hu
    · exact .single hu
    · exact ((Edges.Path.single hx).trans (Edges.path_of_mem_kstar hy)).trans (.single hz)

theorem path_eliminate_iff (h : g.edges.Labelled) (hp : p ≠ q) (hr : r ≠ q) :
    (g.eliminate q).edges.Path p w r ↔ g.edges.Path p w r :=
  ⟨path_of_eliminate h, fun hpath => (path_eliminate h hr hpath).2 hp⟩

/-! ### Eliminating many states -/

def language (g : Gnfa) : Language Char := {w | g.edges.Path g.start w g.accept}

/-- All labels can be read, all edges are between states, and none ends at the start or begins at
the accept state. -/
structure WellFormed (g : Gnfa) : Prop where
  labelled : g.edges.Labelled
  start_ne_accept : g.start ≠ g.accept
  ends : ∀ p r w, w ∈ g.edges.language p r →
    (p ∈ g.states ∧ p ≠ g.accept) ∧ (r ∈ g.states ∧ r ≠ g.start)

theorem mem_states_eliminate : p ∈ (g.eliminate q).states ↔ p ∈ g.states ∧ p ≠ q := by
  simp [eliminate, ExtTreeSet.mem_erase, and_comm, @eq_comm _ p]

theorem WellFormed.eliminate (hg : g.WellFormed) (q : State) : (g.eliminate q).WellFormed where
  labelled := (labelled_eliminate hg.labelled q).1
  start_ne_accept := hg.start_ne_accept
  ends p r w hw := by
    rw [mem_states_eliminate, mem_states_eliminate]
    show ((_ ∧ p ≠ q) ∧ p ≠ g.accept) ∧ (_ ∧ r ≠ q) ∧ r ≠ g.start
    obtain ⟨⟨hp, hr⟩, hw | ⟨_, ⟨x, hx, _, -, rfl⟩, z, hz, rfl⟩⟩ :=
      ((labelled_eliminate hg.labelled q).2 p r w).1 hw
    · have hends := hg.ends p r w hw
      exact ⟨⟨⟨hends.1.1, hp⟩, hends.1.2⟩, ⟨hends.2.1, hr⟩, hends.2.2⟩
    · have hsource := (hg.ends p q x hx).1
      have htarget := (hg.ends q r z hz).2
      exact ⟨⟨⟨hsource.1, hp⟩, hsource.2⟩, ⟨htarget.1, hr⟩, htarget.2⟩

section Foldl

variable {qs : List State}

@[simp] theorem start_foldl_eliminate : (qs.foldl Gnfa.eliminate g).start = g.start := by
  induction qs generalizing g with
  | nil => rfl
  | cons q qs ih => exact ih

@[simp] theorem accept_foldl_eliminate : (qs.foldl Gnfa.eliminate g).accept = g.accept := by
  induction qs generalizing g with
  | nil => rfl
  | cons q qs ih => exact ih

theorem mem_states_foldl_eliminate :
    p ∈ (qs.foldl Gnfa.eliminate g).states ↔ p ∈ g.states ∧ p ∉ qs := by
  induction qs generalizing g with
  | nil => simp
  | cons q qs ih =>
    rw [List.foldl_cons, ih, mem_states_eliminate, List.mem_cons, not_or, and_assoc]

end Foldl

/-- What is left of an automaton when some states are eliminated. -/
structure Reduced (g : Gnfa) (qs : List State) (g' : Gnfa) : Prop where
  wellFormed : g'.WellFormed
  start_eq : g'.start = g.start
  accept_eq : g'.accept = g.accept
  language_eq : g'.language = g.language
  mem_states : ∀ q ∈ g'.states, q ∈ g.states ∧ q ∉ qs

theorem WellFormed.reduced (hg : g.WellFormed) (qs : List State)
    (hqs : ∀ q ∈ qs, q ≠ g.start ∧ q ≠ g.accept) : g.Reduced qs (qs.foldl Gnfa.eliminate g) := by
  induction qs generalizing g with
  | nil => exact ⟨hg, rfl, rfl, rfl, by simp⟩
  | cons q qs ih =>
    obtain ⟨⟨hstart, haccept⟩, hqs⟩ := List.forall_mem_cons.1 hqs
    have hrest := ih (hg.eliminate q) hqs
    refine ⟨hrest.wellFormed, start_foldl_eliminate, accept_foldl_eliminate,
      hrest.language_eq.trans ?_, fun _ => mem_states_foldl_eliminate.1⟩
    ext w
    exact path_eliminate_iff hg.labelled hstart.symm haccept.symm

/-- With no other states, all paths are the edge from the start to the accept state. -/
theorem WellFormed.language_eq (hg : g.WellFormed)
    (hstates : ∀ q ∈ g.states, q = g.start ∨ q = g.accept) :
    g.language = g.edges.language g.start g.accept := by
  ext w
  constructor
  · intro hpath
    obtain ⟨-, heq⟩ | ⟨q, u, v, hu, hrest, rfl⟩ := Edges.Path.eq_or_exists_step hpath
    · exact absurd heq hg.start_ne_accept
    · obtain ⟨hq, hqstart⟩ := (hg.ends _ q u hu).2
      obtain rfl := (hstates q hq).resolve_left hqstart
      obtain ⟨rfl, -⟩ | ⟨r, x, _, hx, -⟩ := hrest.eq_or_exists_step
      · simpa using hu
      · exact absurd rfl (hg.ends _ r x hx).1.2
  · exact .single

/-- The states that are eliminated: all but the start and the accept state. -/
def inner (g : Gnfa) : List State := g.states.toList.filter fun q => q ≠ g.start ∧ q ≠ g.accept

theorem mem_inner : q ∈ g.inner ↔ q ∈ g.states ∧ q ≠ g.start ∧ q ≠ g.accept := by
  rw [inner, List.mem_filter, ExtTreeSet.mem_toList, decide_eq_true_eq]

theorem eq_start_or_accept (h : q ∈ (g.inner.foldl Gnfa.eliminate g).states) :
    q = g.start ∨ q = g.accept := by
  rw [mem_states_foldl_eliminate, mem_inner] at h
  tauto

/-- The label that is left when all states but the start and the accept state are eliminated. -/
theorem WellFormed.toRegex? (hg : g.WellFormed) :
    (g.toRegex? = none ↔ ∀ w, w ∉ g.language) ∧
      ∀ t, g.toRegex? = some t → IsLabel t ∧ wordsOf t = g.language := by
  have hreduced := hg.reduced g.inner fun q hq => (mem_inner.1 hq).2
  have hlabelled := hreduced.wellFormed.labelled
  have hlanguage := hreduced.wellFormed.language_eq fun q hq => by
    rw [hreduced.start_eq, hreduced.accept_eq]
    exact eq_start_or_accept hq
  rw [hreduced.language_eq, hreduced.start_eq, hreduced.accept_eq] at hlanguage
  rw [hlanguage]
  refine ⟨hlabelled.getElem?_eq_none_iff, fun t ht => ⟨hlabelled _ t ht, ?_⟩⟩
  exact (Edges.language_of_some ht).symm

/-! ### Deterministic automata -/

section OfDfa

variable {d : Dfa} {start accept : State}

def dfaEdges (d : Dfa) (start accept : State) : List Edge :=
  ((start, d.start), Written.empty) :: d.states.toList.flatMap (edgesFrom d accept)

theorem mem_dfaEdges {e : Edge} : e ∈ dfaEdges d start accept ↔
    e = ((start, d.start), Written.empty) ∨ ∃ q ∈ d.states,
      (∃ c ∈ d.alphabet, ∃ r, d.next? q c = some r ∧ ((q, r), [c]) = e) ∨
        q ∈ d.accept ∧ ((q, accept), Written.empty) = e := by
  simp only [dfaEdges, edgesFrom, List.mem_cons, List.mem_flatMap, List.mem_append,
    List.mem_filterMap, ExtTreeSet.mem_toList, Option.map_eq_some_iff]
  refine or_congr Iff.rfl (exists_congr fun q => and_congr_right fun _ => or_congr Iff.rfl ?_)
  split
  · next h => simp [h, eq_comm]
  · next h => simp [h]

/-- The edges read one letter between states of the deterministic automaton and nothing at the new
start and the new accept state. -/
theorem labelled_dfaEdges (start accept : State) (hletters : ∀ c ∈ d.alphabet, c.isAlphanum) :
    (Edges.addAll ∅ (dfaEdges d start accept)).Labelled ∧ ∀ p r w,
      w ∈ (Edges.addAll ∅ (dfaEdges d start accept)).language p r ↔
        (p = start ∧ r = d.start ∧ w = []) ∨
        (∃ c ∈ d.alphabet, p ∈ d.states ∧ d.next? p c = some r ∧ w = [c]) ∨
        (p ∈ d.states ∧ p ∈ d.accept ∧ r = accept ∧ w = []) := by
  have hlabels : ∀ e ∈ dfaEdges d start accept, IsLabel e.2 := by
    intro e he
    obtain rfl | ⟨q, -, ⟨c, hc, r, -, rfl⟩ | ⟨-, rfl⟩⟩ := mem_dfaEdges.1 he
    · exact isLabel_empty
    · exact isLabel_letter (hletters c hc)
    · exact isLabel_empty
  obtain ⟨hlabelled, hmem⟩ := Edges.labelled_empty.addAll hlabels
  refine ⟨hlabelled, fun p r w => (hmem p r w).trans ?_⟩
  rw [Edges.language_of_none Edges.getElem?_empty, or_iff_right (Language.notMem_zero w)]
  constructor
  · rintro ⟨e, he, hends, hw⟩
    obtain rfl | ⟨q, hq, ⟨c, hc, r, hnext, rfl⟩ | ⟨haccept, rfl⟩⟩ := mem_dfaEdges.1 he
    · obtain ⟨rfl, rfl⟩ := Prod.mk.inj hends
      rw [wordsOf_empty] at hw
      exact .inl ⟨rfl, rfl, hw⟩
    · obtain ⟨rfl, rfl⟩ := Prod.mk.inj hends
      rw [wordsOf_letter (hletters c hc)] at hw
      exact .inr (.inl ⟨c, hc, hq, hnext, hw⟩)
    · obtain ⟨rfl, rfl⟩ := Prod.mk.inj hends
      rw [wordsOf_empty] at hw
      exact .inr (.inr ⟨hq, haccept, rfl, hw⟩)
  · rintro (⟨rfl, rfl, rfl⟩ | ⟨c, hc, hq, hnext, rfl⟩ | ⟨hq, haccept, rfl, rfl⟩)
    · refine ⟨_, mem_dfaEdges.2 (.inl rfl), rfl, ?_⟩
      rw [wordsOf_empty]
      rfl
    · refine ⟨_, mem_dfaEdges.2 (.inr ⟨p, hq, .inl ⟨c, hc, r, hnext, rfl⟩⟩), rfl, ?_⟩
      rw [wordsOf_letter (hletters c hc)]
      rfl
    · refine ⟨_, mem_dfaEdges.2 (.inr ⟨p, hq, .inr ⟨haccept, rfl⟩⟩), rfl, ?_⟩
      rw [wordsOf_empty]
      rfl

def framed (d : Dfa) (start accept : State) : Gnfa where
  states := (d.states.insert start).insert accept
  start := start
  accept := accept
  edges := Edges.addAll ∅ (dfaEdges d start accept)

theorem mem_states_framed : q ∈ (framed d start accept).states ↔
    q = accept ∨ q = start ∨ q ∈ d.states := by
  rw [framed, mem_insert_iff, mem_insert_iff]

/-- What a deterministic automaton has to be for its expression to be read back: its letters are
letters of expressions, it is closed under its moves, and two state numbers are left. -/
structure Suitable (d : Dfa) : Prop where
  start_mem : d.start ∈ d.states
  accept_mem : ∀ q ∈ d.accept, q ∈ d.states
  target_mem : ∀ q ∈ d.states, ∀ c ∈ d.alphabet, ∀ r, d.next? q c = some r → r ∈ d.states
  isAlphanum : ∀ c ∈ d.alphabet, c.isAlphanum
  room : ∀ q ∈ d.states, q + 2 ≤ State.last

structure Apart (d : Dfa) (start accept : State) : Prop where
  start_not_mem : start ∉ d.states
  accept_not_mem : accept ∉ d.states
  start_ne_accept : start ≠ accept

theorem le_top (hq : q ∈ d.states) : q ≤ (StateSet.greatest? d.states).getD 0 := by
  cases htop : StateSet.greatest? d.states with
  | none =>
    have hnil : d.states.toList = [] := List.getLast?_eq_none_iff.1 htop
    have hmem := ExtTreeSet.mem_toList.2 hq
    rw [hnil] at hmem
    exact absurd hmem List.not_mem_nil
  | some top => exact StateSet.le_greatest hq htop

theorem apart_top (d : Dfa) : Apart d ((StateSet.greatest? d.states).getD 0 + 1)
    ((StateSet.greatest? d.states).getD 0 + 2) where
  start_not_mem hmem := by
    have hle := le_top hmem
    lia
  accept_not_mem hmem := by
    have hle := le_top hmem
    lia
  start_ne_accept := by lia

theorem Suitable.exists_framed (hd : Suitable d) : ∃ start accept,
    ofDfa d = .ok (framed d start accept) ∧ Apart d start accept := by
  refine ⟨_, _, if_pos ?_, apart_top d⟩
  cases htop : StateSet.greatest? d.states with
  | none => decide
  | some top => exact hd.room top (ExtTreeSet.mem_toList.1 (List.mem_of_getLast? htop))

theorem Suitable.wellFormed_framed (hd : Suitable d) (h : Apart d start accept) :
    (framed d start accept).WellFormed where
  labelled := (labelled_dfaEdges start accept hd.isAlphanum).1
  start_ne_accept := h.start_ne_accept
  ends p r w hw := by
    rw [mem_states_framed, mem_states_framed]
    show (_ ∧ p ≠ accept) ∧ _ ∧ r ≠ start
    have hne_start : ∀ q ∈ d.states, q ≠ start := fun q hq heq => h.start_not_mem (heq ▸ hq)
    have hne_accept : ∀ q ∈ d.states, q ≠ accept := fun q hq heq => h.accept_not_mem (heq ▸ hq)
    rcases ((labelled_dfaEdges start accept hd.isAlphanum).2 p r w).1 hw with
      ⟨rfl, rfl, -⟩ | ⟨c, hc, hp, hnext, -⟩ | ⟨hp, -, rfl, -⟩
    · exact ⟨⟨.inr (.inl rfl), h.start_ne_accept⟩, .inr (.inr hd.start_mem), hne_start _ hd.start_mem⟩
    · have hr := hd.target_mem p hp c hc r hnext
      exact ⟨⟨.inr (.inr hp), hne_accept p hp⟩, .inr (.inr hr), hne_start r hr⟩
    · exact ⟨⟨.inr (.inr hp), hne_accept p hp⟩, .inl rfl, h.start_ne_accept.symm⟩

/-- A path to the accept state of the frame is a run to an accept state and one more edge. -/
theorem Suitable.run_of_path (hd : Suitable d) (h : Apart d start accept)
    (hpath : (framed d start accept).edges.Path q w r) (hr : r = accept) (hq : q ∈ d.states) :
    w ∈ d.alphabet.words ∧ ∃ f ∈ d.accept, d.run q w = some f := by
  have hmem := (labelled_dfaEdges start accept hd.isAlphanum).2
  induction hpath with
  | refl => exact absurd (hr ▸ hq) h.accept_not_mem
  | @step p s r u v hu hrest ih =>
    obtain ⟨rfl, -⟩ | ⟨c, hc, -, hnext, rfl⟩ | ⟨-, haccept, rfl, rfl⟩ := (hmem p s u).1 hu
    · exact absurd hq h.start_not_mem
    · obtain ⟨hv, f, hf, hrun⟩ := ih hr (hd.target_mem p hq c hc s hnext)
      refine ⟨List.forall_mem_cons.2 ⟨hc, hv⟩, f, hf, ?_⟩
      exact Dfa.run_cons_eq_some.2 ⟨s, hnext, hrun⟩
    · obtain ⟨rfl, -⟩ | ⟨t, x, _, hx, -⟩ := hrest.eq_or_exists_step
      · exact ⟨Alphabet.nil_mem_words, p, haccept, rfl⟩
      · exact absurd rfl ((hd.wellFormed_framed h).ends _ t x hx).1.2

theorem Suitable.path_of_run (hd : Suitable d) (hq : q ∈ d.states) (hw : w ∈ d.alphabet.words)
    (hr : r ∈ d.accept) (hrun : d.run q w = some r) :
    (framed d start accept).edges.Path q w accept := by
  have hmem := (labelled_dfaEdges start accept hd.isAlphanum).2
  induction w generalizing q with
  | nil =>
    obtain rfl := Option.some.inj hrun
    exact .single ((hmem q accept []).2 (.inr (.inr ⟨hq, hr, rfl, rfl⟩)))
  | cons c w ih =>
    obtain ⟨hc, hw⟩ := List.forall_mem_cons.1 hw
    obtain ⟨s, hnext, hrun⟩ := Dfa.run_cons_eq_some.1 hrun
    have hs := hd.target_mem q hq c hc s hnext
    exact .step ((hmem q s [c]).2 (.inr (.inl ⟨c, hc, hq, hnext, rfl⟩))) (ih hs hw hrun)

theorem Suitable.language_framed (hd : Suitable d) (h : Apart d start accept) :
    (framed d start accept).language = d.language := by
  have hmem := (labelled_dfaEdges start accept hd.isAlphanum).2
  ext w
  rw [Dfa.mem_language]
  constructor
  · intro hpath
    obtain ⟨-, heq⟩ | ⟨s, u, v, hu, hrest, rfl⟩ := Edges.Path.eq_or_exists_step hpath
    · exact absurd heq h.start_ne_accept
    · obtain ⟨-, rfl, rfl⟩ | ⟨c, -, hq, -⟩ | ⟨hq, -⟩ := (hmem start s u).1 hu
      · exact hd.run_of_path h hrest rfl hd.start_mem
      · exact absurd hq h.start_not_mem
      · exact absurd hq h.start_not_mem
  · rintro ⟨hw, f, hf, hrun⟩
    have hstart := (hmem start d.start []).2 (.inl ⟨rfl, rfl, rfl⟩)
    exact Edges.Path.step hstart (hd.path_of_run hd.start_mem hw hf hrun)

/-- Whichever states are eliminated first, and in whatever order, no expression is left if no word is
accepted, and otherwise one that is read as an expression for the accepted words. -/
theorem toRegex?_of_any_order (hd : Suitable d) : ∃ g, ofDfa d = .ok g ∧
    ∀ qs : List State, (∀ q ∈ qs, q ≠ g.start ∧ q ≠ g.accept) →
      ((qs.foldl eliminate g).toRegex? = none ↔ ∀ w, d.accepts w = false) ∧
      ∀ t, (qs.foldl eliminate g).toRegex? = some t →
        ∃ r, parse t = .ok (some r) ∧ ∀ w, r.Matches w ↔ d.accepts w := by
  obtain ⟨start, accept, hok, hapart⟩ := hd.exists_framed
  refine ⟨_, hok, fun qs hqs => ?_⟩
  have hreduced := (hd.wellFormed_framed hapart).reduced qs hqs
  have hlanguage := hreduced.language_eq.trans (hd.language_framed hapart)
  obtain ⟨hnone, hsome⟩ := hreduced.wellFormed.toRegex?
  rw [hlanguage] at hnone hsome
  refine ⟨hnone.trans (forall_congr' fun w => ?_), fun t ht => ?_⟩
  · show ¬ d.accepts w = true ↔ _
    rw [Bool.not_eq_true]
  obtain ⟨hlabel, hwords⟩ := hsome t ht
  obtain ⟨r, hr, hmatches⟩ := hlabel.exists_parse
  refine ⟨r, hr, fun w => ?_⟩
  rw [hmatches, hwords]
  rfl

end OfDfa

/-- The words `a`, `aba`, `ababa` and so on; there is no move for `b` at the start. -/
def alternating : Dfa where
  states := {3, 7}
  alphabet := {'a', 'b'}
  start := 3
  moves := .ofList [((3, 'a'), 7), ((7, 'b'), 3)] _
  accept := {7}

theorem suitable_alternating : Suitable alternating := by
  have hstates : ∀ q, q ∈ alternating.states ↔ q = 3 ∨ q = 7 := by
    intro q
    simp [alternating, @eq_comm _ q]
  constructor
  case start_mem => exact (hstates _).2 (.inl rfl)
  case accept_mem =>
    intro q hq
    exact (hstates q).2 (.inr (mem_singleton_iff.1 hq))
  case target_mem =>
    intro q _ c _ r hnext
    have hentry := (getElem?_ofList_eq_some_iff (by simp; grind)).1 hnext
    simp at hentry
    exact (hstates r).2 (by tauto)
  case isAlphanum =>
    intro c hc
    have hc : c = 'a' ∨ c = 'b' := by
      simpa [alternating, @eq_comm _ c] using hc
    rcases hc with rfl | rfl <;> decide
  case room =>
    intro q hq
    rcases (hstates q).1 hq with rfl | rfl <;> decide

/-- A state is eliminated twice and another one does not exist. -/
theorem toRegex?_alternating : Suitable alternating ∧ ∃ g, ofDfa alternating = .ok g ∧
    ∃ t, ([7, 7, 20].foldl eliminate g).toRegex? = some t ∧
      ∃ r, parse t = .ok (some r) ∧ r.Matches ['a', 'b', 'a'] := by
  obtain ⟨g, hok, horder⟩ := toRegex?_of_any_order suitable_alternating
  have hg : g.start = 8 ∧ g.accept = 9 := by
    have hends : (ofDfa alternating).map (fun g => (g.start, g.accept)) = .ok (8, 9) := by
      decide +kernel
    rw [hok] at hends
    exact Prod.mk.inj (Except.ok.inj hends)
  obtain ⟨hnone, hsome⟩ := horder [7, 7, 20] (by simp [hg])
  have haccepts : alternating.accepts ['a', 'b', 'a'] = true := by decide +kernel
  cases ht : ([7, 7, 20].foldl eliminate g).toRegex? with
  | none => exact absurd (hnone.1 ht ['a', 'b', 'a']) (by simp [haccepts])
  | some t =>
    obtain ⟨r, hparse, hr⟩ := hsome t ht
    exact ⟨suitable_alternating, g, hok, t, ht, r, hparse, (hr _).2 haccepts⟩

end Gnfa

end FormalLanguages
