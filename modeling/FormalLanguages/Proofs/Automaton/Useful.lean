import FormalLanguages.Proofs.Automaton.Elimination
import Mathlib.Data.List.ProdSigma
import Mathlib.Logic.Relation

/-!
# Labels that do not matter

Which edges there are after an elimination depends on the edges before, and not on their labels.
Hence an expression is left exactly if the accept state can be reached. Its text is made of the
labels on the ways from the start to the accept state, and what stands elsewhere does not matter.
-/

namespace FormalLanguages

open Std Relation Regex

namespace Edges

variable {edges : Edges} {ends : State × State} {t : List Char}
  {new : List Edge}

/-! ### Looking up a label -/

/-- A label united with the one that is there already. -/
def merge (old : Option (List Char)) (label : List Char) : Option (List Char) :=
  some (match old with
    | some old => Written.union old label
    | none => label)

def labelsAt (new : List Edge) (ends : State × State) :
    List (List Char) :=
  new.filterMap fun e => if e.1 = ends then some e.2 else none

theorem getElem?_addAll :
    (edges.addAll new)[ends]? = (labelsAt new ends).foldl merge edges[ends]? := by
  induction new generalizing edges with
  | nil => rfl
  | cons e new ih =>
    show (Edges.addAll (edges.add e.1 e.2) new)[ends]? = _
    rw [ih, labelsAt, labelsAt, List.filterMap_cons]
    by_cases heq : e.1 = ends
    · subst heq
      rw [if_pos rfl, List.foldl_cons]
      cases hold : edges[e.1]? with
      | none => rw [getElem?_add_self_of_none hold, merge]
      | some old => rw [getElem?_add_self_of_some hold, merge]
    · rw [if_neg heq, getElem?_add_of_ne heq]

theorem labelsAt_append {more : List Edge} :
    labelsAt (new ++ more) ends = labelsAt new ends ++ labelsAt more ends := List.filterMap_append

theorem labelsAt_flatMap {l : List State} {f : State → List Edge} :
    labelsAt (l.flatMap f) ends = l.flatMap fun q => labelsAt (f q) ends := List.filterMap_flatMap

theorem labelsAt_eq_nil (h : ends ∉ new.map (·.1)) : labelsAt new ends = [] := by
  rw [labelsAt, List.filterMap_eq_nil_iff]
  intro e he
  refine if_neg ?_
  rintro rfl
  exact h (List.mem_map_of_mem he)

theorem labelsAt_eq_singleton (hnodup : (new.map (·.1)).Nodup) (h : (ends, t) ∈ new) :
    labelsAt new ends = [t] := by
  obtain ⟨before, after, rfl⟩ := List.append_of_mem h
  rw [List.map_append, List.map_cons, List.nodup_middle] at hnodup
  obtain ⟨hbefore, hafter⟩ := not_or.1 (mt List.mem_append.2 (List.nodup_cons.1 hnodup).1)
  have hself : labelsAt [(ends, t)] ends = [t] := by
    simp [labelsAt]
  rw [List.append_cons, labelsAt_append, labelsAt_append, labelsAt_eq_nil hbefore,
    labelsAt_eq_nil hafter, hself]
  rfl

theorem exists_getElem?_addAll : (∃ t, (edges.addAll new)[ends]? = some t) ↔
    (∃ t, edges[ends]? = some t) ∨ ∃ e ∈ new, e.1 = ends := by
  refine foldl_iff (V := fun edges => ∃ t, edges[ends]? = some t) (fun edges e => ?_) new edges
  by_cases heq : e.1 = ends
  · subst heq
    simp [getElem?_add_self]
  · simp [getElem?_add_of_ne heq, heq]

end Edges

namespace Gnfa

open Edges

variable {g h : Gnfa} {p q r : State}

/-- The label of the ways of two edges from one state to another through `q`. -/
def bypass (g : Gnfa) (q p r : State) : Option (List Char) :=
  match g.edges[(p, q)]?, g.edges[(q, r)]? with
  | some a, some b => some (detour g.edges[(q, q)]? a b)
  | _, _ => none

theorem nodup_map_filterMap {f : Edge → Option (State × List Char)}
    (h : ∀ e e' x x', f e = some x → f e' = some x' → x.1 = x'.1 → e.1 = e'.1) :
    ((g.edges.toList.filterMap f).map (·.1)).Nodup := by
  rw [List.Nodup, List.pairwise_map, List.pairwise_filterMap]
  refine (List.pairwise_map.1 g.edges.nodup).imp ?_
  exact fun {e e'} hne x hx x' hx' heq => hne (h e e' x x' hx hx' heq)

theorem nodup_incoming : ((g.incoming q).map (·.1)).Nodup :=
  nodup_map_filterMap (by grind)

theorem nodup_outgoing : ((g.outgoing q).map (·.1)).Nodup :=
  nodup_map_filterMap (by grind)

theorem nodup_detours : ((g.detours q).map (·.1)).Nodup := by
  have hproduct : (g.detours q).map (·.1) =
      ((g.incoming q).map (·.1)) ×ˢ ((g.outgoing q).map (·.1)) := by
    simp [detours, List.product, SProd.sprod, List.flatMap_map, List.map_flatMap, Function.comp_def]
  rw [hproduct]
  exact nodup_incoming.product nodup_outgoing

theorem labelsAt_detours (hp : p ≠ q) (hr : r ≠ q) :
    labelsAt (g.detours q) (p, r) = (g.bypass q p r).toList := by
  unfold bypass
  split
  · next a b ha hb =>
    exact labelsAt_eq_singleton nodup_detours
      (mem_detours.2 ⟨p, r, a, b, ⟨ha, hp⟩, ⟨hb, hr⟩, rfl⟩)
  · next hnone =>
    refine labelsAt_eq_nil fun hmem => ?_
    obtain ⟨e, he, hends⟩ := List.mem_map.1 hmem
    obtain ⟨p', r', a, b, ⟨ha, -⟩, ⟨hb, -⟩, rfl⟩ := mem_detours.1 he
    obtain ⟨rfl, rfl⟩ := Prod.mk.inj hends
    exact hnone a b ha hb

theorem getElem?_eliminate (hp : p ≠ q) (hr : r ≠ q) : (g.eliminate q).edges[(p, r)]? =
    (g.bypass q p r).toList.foldl merge g.edges[(p, r)]? := by
  have hkept : (g.kept q)[(p, r)]? = g.edges[(p, r)]? := by
    ext a
    rw [getElem?_kept_eq_some, and_iff_right ⟨hp, hr⟩]
  show (Edges.addAll (g.kept q) (g.detours q))[(p, r)]? = _
  rw [getElem?_addAll, labelsAt_detours hp hr, hkept]

/-! ### Which edges there are -/

def Linked (g : Gnfa) (p r : State) : Prop := ∃ t, g.edges[(p, r)]? = some t

theorem not_linked_iff : ¬ g.Linked p r ↔ g.edges[(p, r)]? = none := by
  rw [Linked, ← Option.ne_none_iff_exists', not_not]

theorem bypass_eq_none (h : ¬ (g.Linked p q ∧ g.Linked q r)) : g.bypass q p r = none := by
  unfold bypass
  split
  · next a b ha hb => exact absurd ⟨⟨a, ha⟩, ⟨b, hb⟩⟩ h
  · rfl

theorem linked_eliminate : (g.eliminate q).Linked p r ↔
    (p ≠ q ∧ r ≠ q) ∧ (g.Linked p r ∨ g.Linked p q ∧ g.Linked q r) := by
  show (∃ t, (Edges.addAll (g.kept q) (g.detours q))[(p, r)]? = some t) ↔ _
  rw [exists_getElem?_addAll, and_or_left]
  refine or_congr ?_ ?_
  · simp only [getElem?_kept_eq_some, exists_and_left, Linked]
  · constructor
    · rintro ⟨e, he, hends⟩
      obtain ⟨p', r', a, b, ⟨ha, hp⟩, ⟨hb, hr⟩, rfl⟩ := mem_detours.1 he
      obtain ⟨rfl, rfl⟩ := Prod.mk.inj hends
      exact ⟨⟨hp, hr⟩, ⟨a, ha⟩, ⟨b, hb⟩⟩
    · rintro ⟨⟨hp, hr⟩, ⟨a, ha⟩, ⟨b, hb⟩⟩
      exact ⟨_, mem_detours.2 ⟨p, r, a, b, ⟨ha, hp⟩, ⟨hb, hr⟩, rfl⟩, rfl⟩

def Closed (g : Gnfa) : Prop := ∀ p r, g.Linked p r → r ∈ g.states

theorem Closed.eliminate (hg : g.Closed) (q : State) : (g.eliminate q).Closed := by
  intro p r hlinked
  rw [mem_states_eliminate]
  obtain ⟨⟨-, hr⟩, h | ⟨-, h⟩⟩ := linked_eliminate.1 hlinked
  · exact ⟨hg _ r h, hr⟩
  · exact ⟨hg _ r h, hr⟩

theorem transGen_of_eliminate (h : TransGen (g.eliminate q).Linked p r) :
    TransGen g.Linked p r := by
  have hedge : ∀ p r, (g.eliminate q).Linked p r → TransGen g.Linked p r := by
    intro p r hlinked
    obtain ⟨-, h | ⟨hin, hout⟩⟩ := linked_eliminate.1 hlinked
    · exact .single h
    · exact .tail (.single hin) hout
  exact TransGen.closed hedge _ _ h

/-- A way from the eliminated state begins with an edge to another one, perhaps after some loops. On
a way from another state each stay in the eliminated one is part of a new edge. -/
theorem transGen_eliminate (hr : r ≠ q) (h : TransGen g.Linked p r) :
    (p = q → ∃ s, s ≠ q ∧ g.Linked q s ∧ ReflTransGen (g.eliminate q).Linked s r) ∧
      (p ≠ q → TransGen (g.eliminate q).Linked p r) := by
  induction h using TransGen.head_induction_on with
  | @single p h =>
    constructor
    · rintro rfl
      exact ⟨r, hr, h, .refl⟩
    · intro hp
      exact .single (linked_eliminate.2 ⟨⟨hp, hr⟩, .inl h⟩)
  | @head p s hfirst _ ih =>
    obtain ⟨ihq, ihne⟩ := ih
    by_cases hs : s = q
    · obtain ⟨s', hs', hlinked, hrest⟩ := ihq hs
      subst hs
      refine ⟨fun _ => ⟨s', hs', hlinked, hrest⟩, fun hp => ?_⟩
      exact .head' (linked_eliminate.2 ⟨⟨hp, hs'⟩, .inr ⟨hfirst, hlinked⟩⟩) hrest
    · constructor
      · rintro rfl
        exact ⟨s, hs, hfirst, (ihne hs).to_reflTransGen⟩
      · intro hp
        exact .head (linked_eliminate.2 ⟨⟨hp, hs⟩, .inl hfirst⟩) (ihne hs)

theorem transGen_eliminate_iff (hp : p ≠ q) (hr : r ≠ q) :
    TransGen (g.eliminate q).Linked p r ↔ TransGen g.Linked p r :=
  ⟨transGen_of_eliminate, fun h => (transGen_eliminate hr h).2 hp⟩

section Foldl

variable {qs : List State}

theorem Closed.foldl_eliminate (hg : g.Closed) : (qs.foldl Gnfa.eliminate g).Closed := by
  induction qs generalizing g with
  | nil => exact hg
  | cons q qs ih => exact ih (hg.eliminate q)

theorem transGen_foldl_eliminate_iff (hp : p ∉ qs) (hr : r ∉ qs) :
    TransGen (qs.foldl Gnfa.eliminate g).Linked p r ↔ TransGen g.Linked p r := by
  induction qs generalizing g with
  | nil => rfl
  | cons q qs ih =>
    obtain ⟨hpq, hp⟩ := not_or.1 (mt List.mem_cons.2 hp)
    obtain ⟨hrq, hr⟩ := not_or.1 (mt List.mem_cons.2 hr)
    exact (ih hp hr).trans (transGen_eliminate_iff hpq hrq)

end Foldl

/-- With no other states, the first edge that leaves the start ends at the accept state. -/
theorem Closed.linked_of_transGen (hg : g.Closed)
    (hstates : ∀ q ∈ g.states, q = g.start ∨ q = g.accept)
    (h : TransGen g.Linked p g.accept) (hp : p = g.start) : g.Linked g.start g.accept := by
  induction h using TransGen.head_induction_on with
  | single h => exact hp ▸ h
  | @head p s h _ ih =>
    rcases hstates s (hg p s h) with hs | rfl
    · exact ih hs
    · exact hp ▸ h

/-- An expression is left exactly if some way leads from the start to the accept state. -/
theorem Closed.toRegex?_eq_none_iff (hg : g.Closed) :
    g.toRegex? = none ↔ ¬ TransGen g.Linked g.start g.accept := by
  have hstart : g.start ∉ g.inner := fun h => (mem_inner.1 h).2.1 rfl
  have haccept : g.accept ∉ g.inner := fun h => (mem_inner.1 h).2.2 rfl
  rw [← transGen_foldl_eliminate_iff hstart haccept, ← not_iff_not, not_not, ← ne_eq,
    Option.ne_none_iff_exists']
  show (g.inner.foldl Gnfa.eliminate g).Linked g.start g.accept ↔ _
  have hclosed : (g.inner.foldl Gnfa.eliminate g).Closed := hg.foldl_eliminate
  have hstates := fun q (hq : q ∈ (g.inner.foldl Gnfa.eliminate g).states) => eq_start_or_accept hq
  refine ⟨.single, fun h => ?_⟩
  simpa using hclosed.linked_of_transGen (by simpa using hstates) (by simpa) rfl

/-! ### Labels on the ways to the accept state -/

/-- The labels of two automata agree between states with `P` and states with `Q`, where `P` holds of
all that is reached from where it holds, `Q` of all from which one gets to where it holds, and the
second automaton has no other edges than the first. -/
structure Agree (P Q : State → Prop) (g h : Gnfa) : Prop where
  states_eq : g.states = h.states
  start_eq : g.start = h.start
  accept_eq : g.accept = h.accept
  linked : ∀ p r, h.Linked p r → g.Linked p r
  forward : ∀ p r, g.Linked p r → P p → P r
  backward : ∀ p r, g.Linked p r → Q r → Q p
  label_eq : ∀ p r, P p → Q r → g.edges[(p, r)]? = h.edges[(p, r)]?

section Agree

variable {P Q : State → Prop}

theorem Agree.bypass_eq (hagree : Agree P Q g h) (hp : P p) (hr : Q r) :
    g.bypass q p r = h.bypass q p r := by
  by_cases hlinked : g.Linked p q ∧ g.Linked q r
  · have hq := hagree.forward p q hlinked.1 hp
    have hq' := hagree.backward q r hlinked.2 hr
    unfold bypass
    rw [hagree.label_eq p q hp hq', hagree.label_eq q r hq hr, hagree.label_eq q q hq hq']
  · rw [bypass_eq_none hlinked,
      bypass_eq_none (mt (And.imp (hagree.linked p q) (hagree.linked q r)) hlinked)]

theorem Agree.eliminate (hagree : Agree P Q g h) (q : State) :
    Agree P Q (g.eliminate q) (h.eliminate q) where
  states_eq := congrArg (fun s : StateSet => s.erase q) hagree.states_eq
  start_eq := hagree.start_eq
  accept_eq := hagree.accept_eq
  linked p r hlinked := by
    rw [linked_eliminate] at hlinked ⊢
    exact hlinked.imp_right (Or.imp (hagree.linked p r)
      (And.imp (hagree.linked p q) (hagree.linked q r)))
  forward p r hlinked hp := by
    obtain ⟨-, h | ⟨hin, hout⟩⟩ := linked_eliminate.1 hlinked
    · exact hagree.forward p r h hp
    · exact hagree.forward q r hout (hagree.forward p q hin hp)
  backward p r hlinked hr := by
    obtain ⟨-, h | ⟨hin, hout⟩⟩ := linked_eliminate.1 hlinked
    · exact hagree.backward p r h hr
    · exact hagree.backward p q hin (hagree.backward q r hout hr)
  label_eq p r hp hr := by
    by_cases hends : p ≠ q ∧ r ≠ q
    · rw [getElem?_eliminate hends.1 hends.2, getElem?_eliminate hends.1 hends.2,
        hagree.bypass_eq hp hr, hagree.label_eq p r hp hr]
    · have hnone : ∀ g : Gnfa, (g.eliminate q).edges[(p, r)]? = none := fun g =>
        not_linked_iff.1 fun hlinked => hends (linked_eliminate.1 hlinked).1
      rw [hnone g, hnone h]

theorem Agree.foldl_eliminate (hagree : Agree P Q g h) (qs : List State) :
    Agree P Q (qs.foldl Gnfa.eliminate g) (qs.foldl Gnfa.eliminate h) := by
  induction qs generalizing g h with
  | nil => exact hagree
  | cons q qs ih => exact ih (hagree.eliminate q)

theorem Agree.toRegex?_eq (hagree : Agree P Q g h) (hstart : P g.start) (haccept : Q g.accept) :
    g.toRegex? = h.toRegex? := by
  have hinner : g.inner = h.inner := by
    rw [inner, inner, hagree.states_eq, hagree.start_eq, hagree.accept_eq]
  have hlabel := (hagree.foldl_eliminate g.inner).label_eq g.start g.accept hstart haccept
  rw [hinner, hagree.start_eq, hagree.accept_eq] at hlabel
  rw [toRegex?, toRegex?, ← inner, ← inner, hinner, hagree.start_eq, hagree.accept_eq]
  exact hlabel

end Agree

end Gnfa

end FormalLanguages
