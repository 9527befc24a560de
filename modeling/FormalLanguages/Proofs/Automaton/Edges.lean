import FormalLanguages.Automaton.Elimination
import FormalLanguages.Proofs.Regex.Written

/-!
# Edges with labels

There is one label between two states, or there is none. An edge that is added changes the label
between its own two ends only, and what stands between them grows by the words of its label.
-/

namespace FormalLanguages

open Computability Regex Written

namespace Edges

variable {edges : Edges} {p q r : State} {t w : List Char} {ends other : State × State}
  {new : List Edge}

/-! ### Looking up a label -/

theorem lookup_cons (e : Edge) (l : List Edge) :
    List.lookup ends (e :: l) = if e.1 = ends then some e.2 else l.lookup ends := by
  show (match ends == e.1 with | true => some e.2 | false => l.lookup ends) = _
  split
  · next h => rw [if_pos (beq_iff_eq.1 h).symm]
  · next h => rw [if_neg fun he => beq_eq_false_iff_ne.1 h he.symm]

theorem lookup_eq_some_iff {l : List Edge} (h : (l.map Prod.fst).Nodup) :
    l.lookup ends = some t ↔ (ends, t) ∈ l := by
  induction l with
  | nil => simp
  | cons e l ih =>
    obtain ⟨hnew, hl⟩ := List.nodup_cons.1 (List.map_cons ▸ h)
    rw [lookup_cons, List.mem_cons]
    split
    · next he =>
      have hnot : (ends, t) ∉ l := fun hmem => hnew (he ▸ List.mem_map_of_mem hmem)
      simp [hnot, Prod.ext_iff, he, eq_comm]
    · next he => simp [ih hl, Prod.ext_iff, Ne.symm he]

theorem mem_toList_iff : (ends, t) ∈ edges.toList ↔ edges[ends]? = some t :=
  (lookup_eq_some_iff edges.nodup).symm

@[simp] theorem getElem?_empty : (∅ : Edges)[ends]? = none := rfl

theorem getElem?_without : (edges.without q)[(p, r)]? = some t ↔
    (p ≠ q ∧ r ≠ q) ∧ edges[(p, r)]? = some t := by
  rw [← mem_toList_iff, ← mem_toList_iff, without, List.mem_filter, decide_eq_true_eq, and_comm]

theorem lookup_unite (l : List Edge) : (unite ends t l).lookup ends =
    some ((l.lookup ends).elim t fun old => Written.union old t) := by
  induction l with
  | nil => simp [unite]
  | cons e l ih =>
    by_cases he : e.1 = ends
    · simp [unite, lookup_cons, he]
    · simp [unite, lookup_cons, he, ih]

theorem lookup_unite_of_ne (h : ends ≠ other) (l : List Edge) :
    (unite ends t l).lookup other = l.lookup other := by
  induction l with
  | nil => simp [unite, lookup_cons, h]
  | cons e l ih =>
    by_cases he : e.1 = ends
    · simp [unite, lookup_cons, he, h]
    · simp [unite, lookup_cons, he, ih]

/-! ### Adding edges -/

theorem getElem?_add_self : (edges.add ends t)[ends]? =
    some (edges[ends]?.elim t fun old => Written.union old t) :=
  lookup_unite edges.toList

theorem getElem?_add_self_of_none (h : edges[ends]? = none) : (edges.add ends t)[ends]? = some t := by
  rw [getElem?_add_self, h, Option.elim_none]

theorem getElem?_add_self_of_some {old : List Char} (h : edges[ends]? = some old) :
    (edges.add ends t)[ends]? = some (Written.union old t) := by
  rw [getElem?_add_self, h, Option.elim_some]

theorem getElem?_add_of_ne (h : ends ≠ other) : (edges.add ends t)[other]? = edges[other]? :=
  lookup_unite_of_ne h edges.toList

def HasLabels (P : List Char → Prop) (edges : Edges) : Prop :=
  ∀ (ends : State × State) (t : List Char), edges[ends]? = some t → P t

theorem hasLabels_empty {P : List Char → Prop} : HasLabels P ∅ := by
  intro ends t h
  cases h

section HasLabels

variable {P : List Char → Prop} (union : ∀ s t, P s → P t → P (Written.union s t))
include union

theorem HasLabels.add (h : edges.HasLabels P) (ht : P t) : (edges.add ends t).HasLabels P := by
  intro other s hs
  by_cases heq : ends = other
  · subst heq
    cases hold : edges[ends]? with
    | none =>
      rw [getElem?_add_self_of_none hold] at hs
      exact Option.some.inj hs ▸ ht
    | some old =>
      rw [getElem?_add_self_of_some hold] at hs
      exact Option.some.inj hs ▸ union old t (h _ old hold) ht
  · rw [getElem?_add_of_ne heq] at hs
    exact h other s hs

theorem HasLabels.addAll (h : edges.HasLabels P) (hnew : ∀ e ∈ new, P e.2) :
    (edges.addAll new).HasLabels P := by
  induction new generalizing edges with
  | nil => exact h
  | cons e new ih =>
    obtain ⟨he, hnew⟩ := List.forall_mem_cons.1 hnew
    exact ih (h.add union he) hnew

end HasLabels

/-! ### The language between two states -/

/-- Every label can be read. -/
def Labelled (edges : Edges) : Prop := edges.HasLabels IsLabel

/-- What the edge from one state to another stands for: no word, if it is missing. -/
def language (edges : Edges) (p r : State) : Language Char :=
  {w | ∃ t, edges[(p, r)]? = some t ∧ w ∈ wordsOf t}

theorem language_of_some (h : edges[(p, r)]? = some t) : edges.language p r = wordsOf t := by
  ext w
  show (∃ s, edges[(p, r)]? = some s ∧ w ∈ wordsOf s) ↔ _
  simp [h]

theorem language_of_none (h : edges[(p, r)]? = none) : edges.language p r = 0 := by
  ext w
  show (∃ s, edges[(p, r)]? = some s ∧ w ∈ wordsOf s) ↔ _
  simp [h, Language.notMem_zero]

theorem Labelled.getElem?_eq_none_iff (h : edges.Labelled) :
    edges[(p, r)]? = none ↔ ∀ w, w ∉ edges.language p r := by
  constructor
  · rintro hnone w ⟨t, ht, -⟩
    rw [hnone] at ht
    cases ht
  · intro hempty
    cases ht : edges[(p, r)]? with
    | none => rfl
    | some t =>
      obtain ⟨w, hw⟩ := (h _ t ht).exists_mem
      exact absurd ⟨t, ht, hw⟩ (hempty w)

theorem labelled_empty : Labelled ∅ := hasLabels_empty

theorem Labelled.mem_language_add (h : edges.Labelled) (ht : IsLabel t) :
    w ∈ (edges.add ends t).language p r ↔
      w ∈ edges.language p r ∨ ends = (p, r) ∧ w ∈ wordsOf t := by
  by_cases heq : ends = (p, r)
  · subst heq
    rw [and_iff_right rfl]
    cases hold : edges[(p, r)]? with
    | none =>
      rw [language_of_some (getElem?_add_self_of_none hold), language_of_none hold]
      exact (or_iff_right (Language.notMem_zero w)).symm
    | some old =>
      rw [language_of_some (getElem?_add_self_of_some hold), language_of_some hold,
        (union_spec (h _ old hold) ht).2, Language.mem_add]
  · have hget : (edges.add ends t)[(p, r)]? = edges[(p, r)]? := getElem?_add_of_ne heq
    show (∃ s, (edges.add ends t)[(p, r)]? = some s ∧ w ∈ wordsOf s) ↔ _
    rw [hget, or_iff_left fun hends => heq hends.1]
    rfl

theorem Labelled.add (h : edges.Labelled) (ht : IsLabel t) : (edges.add ends t).Labelled :=
  HasLabels.add (P := IsLabel) (fun _ _ hs ht => (union_spec hs ht).1) h ht

theorem Labelled.addAll (h : edges.Labelled) (hnew : ∀ e ∈ new, IsLabel e.2) :
    (edges.addAll new).Labelled ∧ ∀ p r w, w ∈ (edges.addAll new).language p r ↔
      w ∈ edges.language p r ∨ ∃ e ∈ new, e.1 = (p, r) ∧ w ∈ wordsOf e.2 := by
  induction new generalizing edges with
  | nil => exact ⟨h, by simp [Edges.addAll]⟩
  | cons e new ih =>
    obtain ⟨he, hnew⟩ := List.forall_mem_cons.1 hnew
    have hadd : (edges.add e.1 e.2).Labelled := h.add he
    obtain ⟨hlabelled, hmem⟩ := ih hadd hnew
    refine ⟨hlabelled, fun p r w => ?_⟩
    rw [Edges.addAll, List.foldl_cons]
    exact (hmem p r w).trans (by simp [h.mem_language_add he, or_assoc])

end Edges

end FormalLanguages
