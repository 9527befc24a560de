import Mathlib.Data.List.Nodup
import Std.Data.ExtTreeMap
import Std.Data.ExtTreeSet

/-!
# Finite sets and maps

A set is listed without repetition. Hence a list that has all of its members is no shorter than the
set is large, and a proper subset is smaller. The order of the members or keys serves for looking
up alone.
-/

namespace FormalLanguages

open Std

variable {α : Type} [Ord α] [TransOrd α] [LawfulEqOrd α]

theorem mem_insert_iff {s : ExtTreeSet α} {a b : α} : b ∈ s.insert a ↔ b = a ∨ b ∈ s := by
  rw [ExtTreeSet.mem_insert, LawfulEqCmp.compare_eq_iff_eq, eq_comm]

theorem mem_erase_iff {s : ExtTreeSet α} {a b : α} : b ∈ s.erase a ↔ b ≠ a ∧ b ∈ s := by
  rw [ExtTreeSet.mem_erase, ne_eq, LawfulEqCmp.compare_eq_iff_eq, eq_comm]

theorem mem_singleton_iff {a b : α} : b ∈ ({a} : ExtTreeSet α) ↔ b = a := by
  show b ∈ (∅ : ExtTreeSet α).insert a ↔ _
  rw [mem_insert_iff, or_iff_left ExtTreeSet.not_mem_empty]

/-- A new key has its value, and the other keys keep theirs. -/
theorem getElem?_insert_eq_some_iff {β : Type} {m : ExtTreeMap α β} {a b : α} {x y : β}
    (ha : m[a]? = none) : (m.insert a x)[b]? = some y ↔ b = a ∧ y = x ∨ m[b]? = some y := by
  rw [ExtTreeMap.getElem?_insert]
  split
  · next heq =>
    obtain rfl := LawfulEqCmp.compare_eq_iff_eq.1 heq
    simp [ha, eq_comm]
  · next hne =>
    have hne : b ≠ a := fun e => hne (LawfulEqCmp.compare_eq_iff_eq.2 e.symm)
    simp [hne]

theorem nodup_toList (s : ExtTreeSet α) : s.toList.Nodup :=
  ExtTreeSet.distinct_toList.imp fun hne heq => hne (LawfulEqCmp.compare_eq_iff_eq.2 heq)

theorem ofList_toList [DecidableEq α] (s : ExtTreeSet α) : ExtTreeSet.ofList s.toList = s := by
  apply ExtTreeSet.ext_mem
  intro a
  rw [ExtTreeSet.mem_ofList, List.contains_iff_mem, ExtTreeSet.mem_toList]

theorem toList_eq_singleton {s : ExtTreeSet α} {a : α} (h : ∀ b, b ∈ s ↔ b = a) :
    s.toList = [a] := by
  apply List.perm_singleton.1
  apply (List.perm_ext_iff_of_nodup (nodup_toList s) (List.nodup_singleton a)).2
  intro b
  rw [ExtTreeSet.mem_toList, List.mem_singleton, h]

omit [LawfulEqOrd α] in
theorem size_insert_of_not_mem {s : ExtTreeSet α} {a : α} (h : a ∉ s) :
    (s.insert a).size = s.size + 1 := by
  rw [← ExtTreeSet.contains_iff_mem, Bool.not_eq_true] at h
  simp only [ExtTreeSet.size_insert, h, Bool.false_eq_true, if_false]

theorem size_le_length {s : ExtTreeSet α} {l : List α} (h : ∀ a ∈ s, a ∈ l) :
    s.size ≤ l.length := by
  rw [← ExtTreeSet.length_toList]
  exact (nodup_toList s).length_le_of_subset fun a ha => h a (ExtTreeSet.mem_toList.1 ha)

theorem size_ofList_of_nodup {l : List α} (h : l.Nodup) :
    (ExtTreeSet.ofList l : ExtTreeSet α).size = l.length :=
  ExtTreeSet.size_ofList (h.imp fun hne heq => hne (LawfulEqCmp.compare_eq_iff_eq.1 heq))

theorem size_lt_size {s t : ExtTreeSet α} (hsub : ∀ a ∈ s, a ∈ t) (hne : s ≠ t) :
    s.size < t.size := by
  obtain ⟨a, hat, has⟩ : ∃ a ∈ t, a ∉ s := by
    apply Classical.byContradiction
    intro h
    apply hne
    apply ExtTreeSet.ext_mem
    intro a
    refine ⟨hsub a, fun ha => ?_⟩
    exact Decidable.byContradiction fun has => h ⟨a, ha, has⟩
  have hle := size_le_length (s := s.insert a) (l := t.toList) fun b hb => by
    rcases ExtTreeSet.mem_insert.1 hb with hb | hb
    · exact ExtTreeSet.mem_toList.2 (LawfulEqCmp.compare_eq_iff_eq.1 hb ▸ hat)
    · exact ExtTreeSet.mem_toList.2 (hsub b hb)
  rw [size_insert_of_not_mem has, ExtTreeSet.length_toList] at hle
  omega

section Lists

variable {α β : Type} {cmp : α → α → Ordering} [TransCmp cmp]

theorem mem_insertMany {m : ExtTreeMap α β cmp} {l : List (α × β)} {a : α}
    (h : a ∈ m ∨ ∃ x, (a, x) ∈ l) : a ∈ m.insertMany l := by
  induction l generalizing m with
  | nil => simpa using h
  | cons e l ih =>
    rw [ExtTreeMap.insertMany_cons]
    apply ih
    rcases h with h | ⟨x, h⟩
    · exact .inl (ExtTreeMap.mem_insert.2 (.inr h))
    · rcases List.mem_cons.1 h with rfl | h
      · exact .inl ExtTreeMap.mem_insert_self
      · exact .inr ⟨x, h⟩

variable [LawfulEqCmp cmp]

theorem mem_of_getElem?_insertMany {m : ExtTreeMap α β cmp} {l : List (α × β)} {a : α} {x : β}
    (h : (m.insertMany l)[a]? = some x) : (a, x) ∈ l ∨ m[a]? = some x := by
  induction l generalizing m with
  | nil => exact .inr (by simpa using h)
  | cons e l ih =>
    rw [ExtTreeMap.insertMany_cons] at h
    rcases ih h with hl | hm
    · exact .inl (List.mem_cons_of_mem e hl)
    · rw [ExtTreeMap.getElem?_insert] at hm
      split at hm
      · next heq =>
        obtain rfl := LawfulEqCmp.compare_eq_iff_eq.1 heq
        obtain rfl := Option.some.inj hm
        exact .inl List.mem_cons_self
      · exact .inr hm

/-- A list that has one value only for each key, as a map. -/
theorem getElem?_ofList_eq_some_iff {l : List (α × β)}
    (h : ∀ a x y, (a, x) ∈ l → (a, y) ∈ l → x = y) {a : α} {x : β} :
    (ExtTreeMap.ofList l cmp)[a]? = some x ↔ (a, x) ∈ l := by
  rw [ExtTreeMap.ofList_eq_insertMany_empty]
  have hmem : ∀ y, ((∅ : ExtTreeMap α β cmp).insertMany l)[a]? = some y → (a, y) ∈ l := by
    intro y hy
    exact (mem_of_getElem?_insertMany hy).resolve_right (by simp)
  refine ⟨hmem x, fun hx => ?_⟩
  obtain ⟨y, hy⟩ := Option.isSome_iff_exists.1
    (ExtTreeMap.mem_iff_isSome_getElem?.1 (mem_insertMany (m := (∅ : ExtTreeMap α β cmp)) (.inr ⟨x, hx⟩)))
  rw [hy, h a x y hx (hmem y hy)]

/-- A map is known from its keys and their values. -/
theorem map_eq_of_getD_eq {m m' : ExtTreeMap α β cmp} {d : β} (hmem : ∀ a, a ∈ m ↔ a ∈ m')
    (h : ∀ a, m.getD a d = m'.getD a d) : m = m' := by
  apply ExtTreeMap.ext_getElem?
  intro a
  by_cases ha : a ∈ m
  · have hvalue := h a
    rw [ExtTreeMap.getD_eq_getD_getElem?, ExtTreeMap.getD_eq_getD_getElem?,
      ExtTreeMap.getElem?_eq_some_getElem ha, ExtTreeMap.getElem?_eq_some_getElem ((hmem a).1 ha),
      Option.getD_some, Option.getD_some] at hvalue
    rw [ExtTreeMap.getElem?_eq_some_getElem ha, ExtTreeMap.getElem?_eq_some_getElem ((hmem a).1 ha),
      hvalue]
  · rw [ExtTreeMap.getElem?_eq_none ha, ExtTreeMap.getElem?_eq_none fun h => ha ((hmem a).2 h)]

end Lists

/-- A statement that each step of a fold can only make true. -/
theorem foldl_iff {σ α : Type} {V : σ → Prop} {P : α → Prop} {f : σ → α → σ}
    (h : ∀ s a, V (f s a) ↔ V s ∨ P a) (l : List α) (s : σ) :
    V (l.foldl f s) ↔ V s ∨ ∃ a ∈ l, P a := by
  induction l generalizing s with
  | nil => simp
  | cons a l ih => simp [ih, h, or_assoc]

end FormalLanguages
