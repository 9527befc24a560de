import FormalLanguages.Proofs.Automaton.Useful

/-!
# Labels that are glued together

All labels are made from letters and the empty word by three operations on texts. Such a label is
read without a union at the top, and as what the operations mean. Therefore the elimination of a
state gives the languages between the other states that it should, whatever texts come about.
-/

namespace FormalLanguages

open Computability Regex Written

namespace Regex.Written

variable {t u : List Char}

/-- The text is made from letters and the empty word. -/
inductive Built : List Char → Prop
  | empty : Built empty
  | letter {c : Char} : c.isAlphanum → Built [c]
  | union {s t : List Char} : Built s → Built t → Built (union s t)
  | concat {s t : List Char} : Built s → Built t → Built (concat s t)
  | star {t : List Char} : Built t → Built (star t)

theorem Built.isLabel (h : Built t) : IsLabel t := by
  induction h with
  | empty => exact isLabel_empty
  | letter h => exact isLabel_letter h
  | union _ _ iht ihu => exact (union_spec iht ihu).1
  | concat _ _ iht ihu => exact (concat_spec iht ihu).1
  | star _ ih => exact (star_spec ih).1

/-- A label is read as an expression to which more can be appended without parentheses. -/
theorem IsLabel.exists_parse_ne_union (h : IsLabel t) :
    ∃ r, parse t = .ok (some r) ∧ (∀ a b, r ≠ .union a b) ∧ wordsOf t = r.language := by
  obtain ⟨r, hr, hrank, rfl⟩ := h
  refine ⟨r, parse_print hr, ?_, wordsOf_print hr⟩
  rintro a b rfl
  exact absurd hrank (by simp [rank])

end Regex.Written

namespace Gnfa

variable {g : Gnfa} {p q r : State} {a b : List Char}

theorem built_detour (hg : g.edges.HasLabels Built) (ha : Built a) (hb : Built b) :
    Built (detour g.edges[(q, q)]? a b) := by
  cases hloop : g.edges[(q, q)]? with
  | none => exact .concat ha hb
  | some x => exact .concat (.concat ha (.star (hg _ x hloop))) hb

theorem built_eliminate (hg : g.edges.HasLabels Built) (q : State) :
    (g.eliminate q).edges.HasLabels Built := by
  have hkept : (g.kept q).HasLabels Built := by
    rintro ⟨p, r⟩ t ht
    exact hg _ t (getElem?_kept_eq_some.1 ht).2
  apply Edges.HasLabels.addAll (fun _ _ => Built.union) hkept
  intro e he
  obtain ⟨p, r, a, b, ⟨ha, -⟩, ⟨hb, -⟩, rfl⟩ := mem_detours.1 he
  exact built_detour hg (hg _ a ha) (hg _ b hb)

/-- No edge is left at a state that was eliminated. -/
theorem ends_ne_of_mem_eliminate {e : Edge} (he : e ∈ (g.eliminate q).edges.toList) :
    e.1.1 ≠ q ∧ e.1.2 ≠ q := by
  have hlinked : (g.eliminate q).Linked e.1.1 e.1.2 := ⟨e.2, Edges.mem_toList_iff.1 he⟩
  exact (linked_eliminate.1 hlinked).1

theorem language_eliminate (hg : g.edges.Labelled) (hp : p ≠ q) (hr : r ≠ q) :
    (g.eliminate q).edges.language p r = g.edges.language p r +
      g.edges.language p q * (g.edges.language q q)∗ * g.edges.language q r := by
  ext w
  rw [(labelled_eliminate hg q).2, and_iff_right ⟨hp, hr⟩, Language.mem_add]

/-- What the three operations make is read as what they mean, without a union at the top. When a
state is eliminated, labels that are made by them give way to such labels, one at most between two
states and none at the state, and between any two others stand the old words and those of the ways
through the state. -/
theorem eliminate_built (hg : g.edges.HasLabels Built) (q : State) :
    (∀ t, Built t →
      ∃ x, parse t = .ok (some x) ∧ (∀ a b, x ≠ .union a b) ∧ wordsOf t = x.language) ∧
    (∀ t u, Built t → Built u → wordsOf (union t u) = wordsOf t + wordsOf u ∧
      wordsOf (concat t u) = wordsOf t * wordsOf u) ∧
    (∀ t, Built t → wordsOf (star t) = (wordsOf t)∗) ∧
    ((g.eliminate q).edges.toList.map Prod.fst).Nodup ∧
    (∀ e ∈ (g.eliminate q).edges.toList, Built e.2 ∧ e.1.1 ≠ q ∧ e.1.2 ≠ q) ∧
    ∀ p r, p ≠ q → r ≠ q → (g.eliminate q).edges.language p r = g.edges.language p r +
      g.edges.language p q * (g.edges.language q q)∗ * g.edges.language q r := by
  have hlabelled : g.edges.Labelled := fun ends t ht => (hg ends t ht).isLabel
  refine ⟨fun t ht => ht.isLabel.exists_parse_ne_union, fun t u ht hu => ?_, fun t ht => ?_,
    (g.eliminate q).edges.nodup, fun e he => ?_, fun p r hp hr => language_eliminate hlabelled hp hr⟩
  · exact ⟨(union_spec ht.isLabel hu.isLabel).2, (concat_spec ht.isLabel hu.isLabel).2⟩
  · exact (star_spec ht.isLabel).2
  · exact ⟨built_eliminate hg q _ _ (Edges.mem_toList_iff.1 he), ends_ne_of_mem_eliminate he⟩

/-- A loop and a shortcut around the state between the other two. -/
def detoured : Gnfa where
  states := {0, 1, 2}
  start := 0
  accept := 2
  edges := Edges.addAll ∅ [((0, 1), ['a', 'b']), ((1, 1), ['a', '?']), ((1, 2), Written.empty),
    ((0, 2), ['b'])]

theorem eliminate_detoured : detoured.edges.HasLabels Built ∧
    (detoured.eliminate 1).edges[(0, 2)]? =
      some ['(', 'b', '|', 'a', 'b', '(', 'a', '?', ')', '*', ')'] ∧
    ['a', 'b', 'a', 'a'] ∈ (detoured.eliminate 1).edges.language 0 2 := by
  have ha : Built ['a'] := .letter (by decide)
  have hb : Built ['b'] := .letter (by decide)
  have hbuilt : detoured.edges.HasLabels Built := by
    apply Edges.HasLabels.addAll (P := Built) (fun _ _ => Built.union) Edges.hasLabels_empty
    simp only [List.forall_mem_cons, List.not_mem_nil, false_implies, implies_true, and_true]
    exact ⟨.concat ha hb, .union ha .empty, .empty, hb⟩
  obtain ⟨-, hmeaning, -, -, -, hlanguage⟩ := eliminate_built hbuilt 1
  have hfirst : wordsOf ['a', 'b'] = {['a']} * {['b']} := by
    rw [← wordsOf_letter (by decide), ← wordsOf_letter (by decide)]
    exact (hmeaning _ _ ha hb).2
  have hloop : wordsOf ['a', '?'] = {['a']} + 1 := by
    rw [← wordsOf_letter (by decide), ← wordsOf_empty]
    exact (hmeaning _ _ ha .empty).1
  refine ⟨hbuilt, by decide +kernel, ?_⟩
  rw [hlanguage 0 2 (by decide) (by decide), Language.mem_add]
  refine .inr ⟨['a', 'b', 'a', 'a'], ⟨['a', 'b'], ?_, ['a', 'a'], ?_, rfl⟩, [], ?_, rfl⟩
  · rw [Edges.language_of_some (t := ['a', 'b']) (by decide +kernel), hfirst]
    exact ⟨['a'], rfl, ['b'], rfl, rfl⟩
  · rw [Edges.language_of_some (t := ['a', '?']) (by decide +kernel), hloop]
    have hletter : ['a'] ∈ ({['a']} + 1 : Language Char) := .inl rfl
    exact Language.mem_kstar.2 ⟨[['a'], ['a']], rfl, by simpa using hletter⟩
  · rw [Edges.language_of_some (t := Written.empty) (by decide +kernel), wordsOf_empty]
    rfl

end Gnfa

end FormalLanguages
