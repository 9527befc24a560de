import FormalLanguages.Comparison.ContextFree
import FormalLanguages.Proofs.Chart.Enumeration
import FormalLanguages.Proofs.Sets
import Mathlib.Algebra.BigOperators.Intervals
import Mathlib.Algebra.Order.BigOperators.Group.Finset
import Mathlib.Data.String.Basic

/-!
# Comparing lengths within a budget

The texts of a length are listed up to one more than the budget has left, so that a list that is cut
has too many of them. This fails if sentences that come first have the same text, unless the budget
has room for all sentences. Where it holds, the comparison spends the number of texts of each length
and ends with the first length that differs or that is too much.
-/

namespace FormalLanguages

open Std Finset

/-- The greatest of some lengths, or what stands for it if there is none. -/
inductive LastOf (S : Set Nat) (default : Option Nat) : Option Nat → Prop
  | found {k : Nat} (greatest : IsGreatest S k) : LastOf S default (some k)
  | missing (empty : S = ∅) : LastOf S default default

section LastOf

variable {S : Set Nat} {n : Nat} {last default : Option Nat}

theorem lastOf_empty_iff : LastOf ∅ default last ↔ last = default := by
  constructor
  · rintro (h | -)
    · exact absurd h.1 (Set.notMem_empty _)
    · rfl
  · rintro rfl
    exact .missing rfl

theorem lastOf_insert_iff (h : ∀ m ∈ S, n < m) :
    LastOf (insert n S) default last ↔ LastOf S (some n) last := by
  constructor
  · rintro (⟨rfl | hk, hle⟩ | hempty)
    · refine .missing (Set.eq_empty_of_forall_notMem fun m hm => ?_)
      exact absurd (hle (.inr hm)) (Nat.not_le_of_lt (h m hm))
    · exact .found ⟨hk, fun m hm => hle (.inr hm)⟩
    · exact absurd hempty (Set.insert_nonempty n S).ne_empty
  · rintro (⟨hk, hle⟩ | rfl)
    · refine .found ⟨.inr hk, ?_⟩
      rintro m (rfl | hm)
      · exact (h _ hk).le
      · exact hle hm
    · exact .found ⟨.inl rfl, fun m hm => (hm.resolve_right (Set.notMem_empty m)).le⟩

end LastOf

namespace Chart

variable {c d : Chart} {n count r k : Nat} {t : String}

/-- The texts of all sentences of a length, in the order of the sentences. -/
def allTexts (c : Chart) (n : Nat) : List String := (c.extending n []).map String.join

/-- The set of texts of a length, as far as they can be counted. -/
def countedTexts (c : Chart) (n : Nat) : ExtTreeSet String := .ofList (c.texts n Budget.maxCount)

theorem texts_eq_take (c : Chart) (n limit : Nat) :
    c.texts n limit = (c.allTexts n).take limit := by
  rw [texts, sentences_eq_take, allTexts, List.map_take]

theorem mem_countedTexts : t ∈ c.countedTexts n ↔ t ∈ (c.allTexts n).take Budget.maxCount := by
  rw [countedTexts, texts_eq_take, ExtTreeSet.mem_ofList, List.contains_iff_mem]

theorem size_countedTexts_le (c : Chart) (n : Nat) :
    (c.countedTexts n).size ≤ (c.allTexts n).length := by
  rw [countedTexts, texts_eq_take]
  exact ExtTreeSet.size_ofList_le.trans (List.length_take_le' _ _)

theorem size_countedTexts (h : (c.allTexts n).Nodup) :
    (c.countedTexts n).size = min Budget.maxCount (c.allTexts n).length := by
  rw [countedTexts, texts_eq_take, size_ofList_of_nodup (h.sublist (List.take_sublist _ _)),
    List.length_take]

/-- If no text comes twice, or if there is room for all, a list that is cut has too many texts. -/
theorem listTexts?_eq (h : (c.allTexts n).Nodup ∨ (c.allTexts n).length ≤ r)
    (hr : r ≤ Budget.maxCount) :
    listTexts? c n r = if (c.countedTexts n).size ≤ r then
      some (c.countedTexts n, r - (c.countedTexts n).size) else none := by
  by_cases hlength : (c.allTexts n).length ≤ r
  · have hall : c.texts n (min (r + 1) Budget.maxCount) = c.texts n Budget.maxCount := by
      rw [texts_eq_take, texts_eq_take, List.take_of_length_le (by omega),
        List.take_of_length_le (by omega)]
    rw [listTexts?, hall]
    rfl
  · have hnodup := h.resolve_right hlength
    rcases hr.lt_or_eq with hr | rfl
    · have hsize : (ExtTreeSet.ofList (c.texts n (r + 1)) : ExtTreeSet String).size = r + 1 := by
        rw [texts_eq_take, size_ofList_of_nodup (hnodup.sublist (List.take_sublist _ _)),
          List.length_take]
        omega
      rw [size_countedTexts hnodup, if_neg (by omega), listTexts?, Nat.min_eq_left hr, if_neg]
      rw [hsize]
      omega
    · rw [listTexts?, Nat.min_eq_right (Nat.le_succ _)]
      rfl

/-- What is listed are texts of sentences, cut or not. -/
theorem mem_allTexts_of_listTexts? {texts : ExtTreeSet String} {rest : Nat}
    (h : listTexts? c n r = some (texts, rest)) (ht : t ∈ texts) : t ∈ c.allTexts n := by
  rw [listTexts?] at h
  split at h
  · obtain ⟨rfl, -⟩ := Prod.mk.inj (Option.some.inj h)
    rw [texts_eq_take, ExtTreeSet.mem_ofList, List.contains_iff_mem] at ht
    exact List.mem_of_mem_take ht
  · cases h

theorem mem_diff_of_head? {s u : ExtTreeSet String} (h : some t = (s \ u).toList.head?) :
    t ∈ s ∧ t ∉ u :=
  ExtTreeSet.mem_diff_iff.1 (ExtTreeSet.mem_toList.1 (List.mem_of_head? h.symm))

/-- Each text that is reported is the text of a sentence, on its own side and of that length. -/
theorem mem_allTexts_of_different {checked : Option Nat} {left right : Option String}
    (h : compareLengths c d count n r checked = .different k left right) :
    (∀ t, left = some t → t ∈ c.allTexts k) ∧ (∀ t, right = some t → t ∈ d.allTexts k) := by
  induction count generalizing n r checked with
  | zero => cases h
  | succ count ih =>
    rw [compareLengths] at h
    split at h
    · cases h
    · next texts rest hleft =>
      split at h
      · cases h
      · next texts' rest' hright =>
        split at h
        · exact ih h
        · obtain ⟨rfl, rfl, rfl⟩ := Verdict.different.inj h
          exact ⟨fun t ht => mem_allTexts_of_listTexts? hleft (mem_diff_of_head? ht.symm).1,
            fun t ht => mem_allTexts_of_listTexts? hright (mem_diff_of_head? ht.symm).1⟩

/-- What a comparison of one length takes from the budget. -/
def lengthCost (c d : Chart) (n : Nat) : Nat := (c.countedTexts n).size + (d.countedTexts n).size

/-- No list of the `count` lengths from `n` on can be cut without having too many texts: either no
two sentences have the same text, or the budget has room for all sentences. -/
def Fair (c d : Chart) (n count r : Nat) : Prop :=
  (∀ m, n ≤ m → m < n + count → (c.allTexts m).Nodup ∧ (d.allTexts m).Nodup) ∨
    ∑ m ∈ Ico n (n + count), ((c.allTexts m).length + (d.allTexts m).length) ≤ r

theorem Fair.listTexts?_eq (h : Fair c d n (count + 1) r) (hr : r ≤ Budget.maxCount) :
    (listTexts? c n r = if (c.countedTexts n).size ≤ r then
      some (c.countedTexts n, r - (c.countedTexts n).size) else none) ∧
    listTexts? d n (r - (c.countedTexts n).size) =
      if (d.countedTexts n).size ≤ r - (c.countedTexts n).size then
        some (d.countedTexts n, r - (c.countedTexts n).size - (d.countedTexts n).size) else none := by
  have hrest : r - (c.countedTexts n).size ≤ Budget.maxCount := (Nat.sub_le _ _).trans hr
  rcases h with h | h
  · obtain ⟨hc, hd⟩ := h n (Nat.le_refl n) (by omega)
    exact ⟨Chart.listTexts?_eq (.inl hc) hr, Chart.listTexts?_eq (.inl hd) hrest⟩
  · rw [sum_eq_sum_Ico_succ_bot (by omega)] at h
    have hle := c.size_countedTexts_le n
    exact ⟨Chart.listTexts?_eq (.inr (by omega)) hr,
      Chart.listTexts?_eq (.inr (by omega)) hrest⟩

theorem Fair.next (h : Fair c d n (count + 1) r) :
    Fair c d (n + 1) count (r - lengthCost c d n) := by
  rcases h with h | h
  · exact .inl fun m hm hlt => h m (by omega) (by omega)
  · rw [sum_eq_sum_Ico_succ_bot (by omega)] at h
    have hc := c.size_countedTexts_le n
    have hd := d.size_countedTexts_le n
    have hend : n + 1 + count = n + (count + 1) := by omega
    rw [Fair, lengthCost, hend]
    exact .inr (by omega)

/-- The comparison of one length, and of those after it. -/
theorem Fair.compareLengths_succ (h : Fair c d n (count + 1) r) (hr : r ≤ Budget.maxCount)
    (checked : Option Nat) : compareLengths c d (count + 1) n r checked =
      if lengthCost c d n ≤ r then
        if c.countedTexts n = d.countedTexts n then
          compareLengths c d count (n + 1) (r - lengthCost c d n) (some n)
        else .different n (c.countedTexts n \ d.countedTexts n).toList.head?
          (d.countedTexts n \ c.countedTexts n).toList.head?
      else .inconclusive checked := by
  obtain ⟨hc, hd⟩ := h.listTexts?_eq hr
  rw [compareLengths, hc]
  by_cases hleft : (c.countedTexts n).size ≤ r
  · rw [if_pos hleft]
    dsimp only
    rw [hd]
    by_cases hright : (d.countedTexts n).size ≤ r - (c.countedTexts n).size
    · rw [if_pos hright, if_pos (by rw [lengthCost]; omega), lengthCost, Nat.sub_add_eq]
    · rw [if_neg hright, if_neg (by rw [lengthCost]; omega)]
  · rw [if_neg hleft, if_neg (by rw [lengthCost]; omega)]

def affordable (c d : Chart) (n count r : Nat) : Set Nat :=
  {k | n ≤ k ∧ k < n + count ∧ ∑ m ∈ Ico n (k + 1), lengthCost c d m ≤ r}

theorem affordable_zero (c d : Chart) (n r : Nat) : affordable c d n 0 r = ∅ := by
  ext k
  refine iff_of_false ?_ (Set.notMem_empty k)
  rintro ⟨hle, hlt, -⟩
  omega

theorem affordable_succ_of_le (h : lengthCost c d n ≤ r) :
    affordable c d n (count + 1) r =
      insert n (affordable c d (n + 1) count (r - lengthCost c d n)) := by
  ext k
  rw [Set.mem_insert_iff]
  constructor
  · rintro ⟨hle, hlt, hsum⟩
    refine hle.eq_or_lt.imp Eq.symm fun hnk => ⟨hnk, by omega, ?_⟩
    rw [sum_eq_sum_Ico_succ_bot (by omega)] at hsum
    omega
  · rintro (rfl | ⟨hle, hlt, hsum⟩)
    · exact ⟨Nat.le_refl k, by omega, by rw [Nat.Ico_succ_singleton, sum_singleton]; exact h⟩
    · refine ⟨by omega, by omega, ?_⟩
      rw [sum_eq_sum_Ico_succ_bot (by omega)]
      omega

theorem affordable_succ_of_lt (h : r < lengthCost c d n) : affordable c d n (count + 1) r = ∅ := by
  ext k
  refine iff_of_false ?_ (Set.notMem_empty k)
  rintro ⟨hle, -, hsum⟩
  rw [sum_eq_sum_Ico_succ_bot (by omega)] at hsum
  omega

theorem affordable_of_le {m : Nat} (hk : k ∈ affordable c d n count r) (hm : n ≤ m) (hmk : m ≤ k) :
    m ∈ affordable c d n count r := by
  obtain ⟨-, hlt, hsum⟩ := hk
  refine ⟨hm, by omega, ?_⟩
  exact (sum_le_sum_of_subset (Ico_subset_Ico_right (by omega))).trans hsum

theorem lengthCost_le (hk : k ∈ affordable c d n count r) : lengthCost c d k ≤ r :=
  (single_le_sum (fun _ _ => Nat.zero_le _) (mem_Ico.2 ⟨hk.1, Nat.lt_succ_self k⟩)).trans hk.2.2

/-- A difference is reported at the first length that differs, if the budget lasts so long. -/
theorem Fair.compareLengths_eq_different_iff (h : Fair c d n count r) (hr : r ≤ Budget.maxCount)
    {checked : Option Nat} {left right : Option String} :
    compareLengths c d count n r checked = .different k left right ↔
      k ∈ affordable c d n count r ∧ (∀ m, n ≤ m → m < k → c.countedTexts m = d.countedTexts m) ∧
      c.countedTexts k ≠ d.countedTexts k ∧
      left = (c.countedTexts k \ d.countedTexts k).toList.head? ∧
      right = (d.countedTexts k \ c.countedTexts k).toList.head? := by
  induction count generalizing n r checked with
  | zero => simp [compareLengths, affordable_zero]
  | succ count ih =>
    rw [h.compareLengths_succ hr]
    split
    · next hcost =>
      rw [affordable_succ_of_le hcost]
      split
      · next heq =>
        rw [ih h.next ((Nat.sub_le _ _).trans hr)]
        constructor
        · rintro ⟨hk, hsame, hne, hl, hr⟩
          refine ⟨.inr hk, fun m hm hlt => ?_, hne, hl, hr⟩
          rcases hm.eq_or_lt with rfl | hm
          · exact heq
          · exact hsame m hm hlt
        · rintro ⟨rfl | hk, hsame, hne, hl, hr⟩
          · exact absurd heq hne
          · exact ⟨hk, fun m hm => hsame m (Nat.le_of_succ_le hm), hne, hl, hr⟩
      · next hne =>
        rw [Verdict.different.injEq]
        constructor
        · rintro ⟨rfl, rfl, rfl⟩
          exact ⟨.inl rfl, fun m hm hlt => absurd hlt (Nat.not_lt_of_le hm), hne, rfl, rfl⟩
        · rintro ⟨rfl | hk, hsame, -, rfl, rfl⟩
          · exact ⟨rfl, rfl, rfl⟩
          · exact absurd (hsame n (Nat.le_refl n) hk.1) hne
    · next hcost =>
      rw [affordable_succ_of_lt (Nat.lt_of_not_le hcost)]
      simp

/-- No difference is reported if no affordable length differs, and then the last of them is. -/
theorem Fair.compareLengths_eq_inconclusive_iff (h : Fair c d n count r) (hr : r ≤ Budget.maxCount)
    {checked last : Option Nat} : compareLengths c d count n r checked = .inconclusive last ↔
      (∀ k ∈ affordable c d n count r, c.countedTexts k = d.countedTexts k) ∧
      LastOf (affordable c d n count r) checked last := by
  induction count generalizing n r checked with
  | zero => simp [compareLengths, affordable_zero, lastOf_empty_iff, eq_comm]
  | succ count ih =>
    rw [h.compareLengths_succ hr]
    split
    · next hcost =>
      rw [affordable_succ_of_le hcost]
      split
      · next heq =>
        rw [ih h.next ((Nat.sub_le _ _).trans hr), lastOf_insert_iff fun m hm => hm.1,
          Set.forall_mem_insert, and_iff_right heq]
      · next hne =>
        refine iff_of_false (by simp) fun hsame => hne ?_
        exact hsame.1 n (.inl rfl)
    · next hcost =>
      rw [affordable_succ_of_lt (Nat.lt_of_not_le hcost)]
      simp [lastOf_empty_iff, eq_comm]

end Chart

end FormalLanguages
