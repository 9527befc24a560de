import FormalLanguages.Chart.Membership
import FormalLanguages.Proofs.Search
import Mathlib.Data.List.Induction

/-!
# The columns of a chart

The column after some tokens is the least set of items that has what the tokens lead to and is
closed under prediction, under completion, and under advancing over nullable variables. There are
finitely many items that can be in it, and therefore the loop that makes it ends.
-/

namespace FormalLanguages.Chart

open Std Search

variable {c : Chart} {s : Column} {i j : Item} {t v : String} {u w : List String} {k n : Nat}

/-! ### Items that lead to others -/

/-- The items of a column that wait for the terminal, advanced over it, in the order of the
column. -/
def onward (c : Chart) (column : Column) (t : String) : List Item :=
  (column.toList.filter (c.next? · = some (.terminal t))).map Item.advance

theorem getD_scans (c : Chart) (s : Column) (t : String) :
    (c.scans s).getD t [] = c.onward s t := by
  simp only [scans, onward, ExtTreeSet.foldr_eq_foldr_toList]
  induction s.toList with
  | nil => simp
  | cons i items ih =>
    rw [List.foldr_cons]
    split
    · next t' h =>
      rw [ExtTreeMap.getD_insert]
      by_cases ht : t' = t
      · rw [ht] at h ⊢
        simp [h, ih]
      · simp [h, ht, ih]
    · next h => rw [List.filter_cons_of_neg (by simpa using h t), ih]

theorem mem_scans_getD :
    j ∈ (c.scans s).getD t [] ↔
      ∃ i ∈ s, c.next? i = some (.terminal t) ∧ i.advance = j := by
  rw [getD_scans]
  simp [onward, and_assoc]

theorem mem_waiting :
    j ∈ c.waiting s v ↔ ∃ i ∈ s, c.next? i = some (.variable v) ∧ i.advance = j := by
  simp only [waiting, ExtTreeSet.foldr_eq_foldr_toList, ← ExtTreeSet.mem_toList]
  induction s.toList with
  | nil => simp
  | cons i items ih =>
    simp only [List.foldr_cons, List.mem_cons, exists_eq_or_imp, ← ih]
    split
    · next h => simp [h, eq_comm]
    · next h => exact (or_iff_right fun hi => h hi.1).symm

/-- The ways in which an item brings another one into its column. -/
theorem mem_successors_iff {columns : Array Column} :
    j ∈ c.successors columns s i ↔
      (∃ v, c.next? i = some (.variable v) ∧
        ((∃ k ∈ c.rulesOf.getD v [], j = ⟨k, 0, columns.size⟩) ∨
          v ∈ c.nullable ∧ j = i.advance)) ∨
      (∃ v, c.next? i = none ∧ c.head? i = some v ∧
        j ∈ c.waiting (columns[i.origin]?.getD s) v) := by
  unfold successors
  split
  · next h => simp [h]
  · next v h =>
    split
    · next hv => simp [h, hv, eq_comm]
    · next hv => simp [h, hv, eq_comm]
  · next h =>
    split
    · next v hv => simp [h, hv]
    · next hv => simp [h, hv]

/-! ### Columns after tokens -/

def push (c : Chart) (s : Array Column × Column) (t : String) : Array Column × Column :=
  (s.1.push s.2, c.close (s.1.push s.2) ((c.scans s.2).getD t []))

def after (c : Chart) (u : List String) : Array Column × Column :=
  u.foldl c.push (#[], c.first)

def column (c : Chart) (u : List String) : Column := (c.after u).2

def earlier (c : Chart) (u : List String) : Array Column := (c.after u).1

theorem after_append : c.after (u ++ [t]) = c.push (c.after u) t := by
  rw [after, List.foldl_append]
  rfl

theorem earlier_append : c.earlier (u ++ [t]) = (c.earlier u).push (c.column u) := by
  rw [earlier, after_append]
  rfl

theorem column_append :
    c.column (u ++ [t]) = c.close (c.earlier (u ++ [t])) ((c.scans (c.column u)).getD t []) := by
  rw [earlier_append, column, after_append]
  rfl

@[simp] theorem size_earlier (c : Chart) (u : List String) : (c.earlier u).size = u.length := by
  induction u using List.reverseRecOn with
  | nil => rfl
  | append_singleton u t ih => rw [earlier_append, Array.size_push, ih, List.length_append]; rfl

theorem getElem?_earlier :
    (c.earlier u)[k]? = if k < u.length then some (c.column (u.take k)) else none := by
  induction u using List.reverseRecOn with
  | nil => rfl
  | append_singleton u t ih =>
    rw [earlier_append, Array.getElem?_push, size_earlier, ih, List.length_append,
      List.length_singleton]
    rcases Nat.lt_trichotomy k u.length with hlt | rfl | hlt
    · have htake : (u ++ [t]).take k = u.take k := List.take_append_of_le_length (by omega)
      rw [if_neg (by omega), if_pos hlt, if_pos (by omega), htake]
    · rw [if_pos rfl, if_pos (by omega), List.take_left]
    · rw [if_neg (by omega), if_neg (by omega), if_neg (by omega)]

/-- The items that the column after some tokens begins with. -/
def starts (c : Chart) (u : List String) : List Item :=
  match u.getLast? with
  | none => [startItem]
  | some t => (c.scans (c.column u.dropLast)).getD t []

theorem column_eq : c.column u = c.close (c.earlier u) (c.starts u) := by
  induction u using List.reverseRecOn with
  | nil => rfl
  | append_singleton u t =>
    rw [column_append, starts, List.getLast?_concat, List.dropLast_concat]

theorem mem_starts_iff : j ∈ c.starts u ↔ u = [] ∧ j = startItem ∨
    ∃ x t, u = x ++ [t] ∧ ∃ i ∈ c.column x, c.next? i = some (.terminal t) ∧ i.advance = j := by
  induction u using List.reverseRecOn with
  | nil => simp [starts]
  | append_singleton u t =>
    rw [starts, List.getLast?_concat, List.dropLast_concat, mem_scans_getD]
    constructor
    · exact fun h => .inr ⟨u, t, rfl, h⟩
    · rintro (⟨h, -⟩ | ⟨x, s, h, hj⟩)
      · simp at h
      · obtain ⟨rfl, hts⟩ := List.append_inj' h rfl
        cases hts
        exact hj

theorem getElem?_earlier_getD :
    (c.earlier u)[k]?.getD s = if k < u.length then c.column (u.take k) else s := by
  rw [getElem?_earlier]
  split <;> rfl

/-- What the start has and what is kept by each way to a new item holds for all items. -/
theorem column_induction {P : List String → Item → Prop} (start : P [] startItem)
    (scan : ∀ u t i, P u i → c.next? i = some (.terminal t) → P (u ++ [t]) i.advance)
    (predict : ∀ u i v, P u i → c.next? i = some (.variable v) → ∀ k ∈ c.rulesOf.getD v [],
      P u ⟨k, 0, u.length⟩)
    (skip : ∀ u i v, P u i → c.next? i = some (.variable v) → v ∈ c.nullable → P u i.advance)
    (complete : ∀ u i v j, P u i → c.next? i = none → c.head? i = some v →
      P (u.take i.origin) j → c.next? j = some (.variable v) → P u j.advance) :
    ∀ i ∈ c.column u, P u i := by
  induction hn : u.length using Nat.strongRecOn generalizing u with
  | ind n ih =>
    rw [column_eq]
    apply spread_induction
    · intro j hj
      rcases mem_starts_iff.1 hj with ⟨rfl, rfl⟩ | ⟨x, t, rfl, i, hi, ht, rfl⟩
      · exact start
      · apply scan x t i _ ht
        rw [List.length_append, List.length_singleton] at hn
        exact ih x.length (by omega) rfl i hi
    · intro s hs i hi j hj
      rcases mem_successors_iff.1 hj with ⟨v, hv, h⟩ | ⟨v, hnone, hv, h⟩
      · rcases h with ⟨k, hk, rfl⟩ | ⟨hnull, rfl⟩
        · rw [size_earlier]
          exact predict u i v hi hv k hk
        · exact skip u i v hi hv hnull
      · obtain ⟨j', hj', hnext, rfl⟩ := mem_waiting.1 h
        apply complete u i v j' hi hnone hv _ hnext
        rw [getElem?_earlier_getD] at hj'
        split at hj'
        · next hlt =>
          apply ih i.origin (by omega) _ j' hj'
          rw [List.length_take]
          omega
        · rw [List.take_of_length_le (by omega)]
          exact hs j' hj'

/-! ### The items that there can be -/

def InRange (c : Chart) (n : Nat) (i : Item) : Prop :=
  ∃ v parts, c.rules[i.rule]? = some (v, parts) ∧ i.dot ≤ parts.length ∧ i.origin ≤ n

/-- The rules are numbered in the same way at the two places where they are kept. -/
structure Indexed (c : Chart) : Prop where
  start : ∃ v parts, c.rules[0]? = some (v, parts)
  mem_rulesOf : ∀ v k, k ∈ c.rulesOf.getD v [] ↔ ∃ parts, c.rules[k]? = some (v, parts)

theorem InRange.advance {x : Part} (h : c.InRange n i) (hx : c.next? i = some x) :
    c.InRange n i.advance := by
  obtain ⟨v, parts, hrule, -, horigin⟩ := h
  obtain ⟨v', parts', hrule', hpart⟩ := next?_eq_some_iff.1 hx
  rw [hrule] at hrule'
  cases hrule'
  have hlt := (List.getElem?_eq_some_iff.1 hpart).1
  exact ⟨v, parts, hrule, hlt, horigin⟩

theorem InRange.mono {m : Nat} (h : c.InRange m i) (hmn : m ≤ n) : c.InRange n i := by
  obtain ⟨v, parts, hrule, hdot, horigin⟩ := h
  exact ⟨v, parts, hrule, hdot, by omega⟩

def items (c : Chart) (n : Nat) : List Item :=
  (List.range (n + 1)).flatMap fun origin => c.rules.toList.zipIdx.flatMap fun ((_, parts), k) =>
    (List.range (parts.length + 1)).map fun dot => ⟨k, dot, origin⟩

theorem mem_items_iff : i ∈ c.items n ↔ c.InRange n i := by
  simp only [items, InRange, List.mem_flatMap, List.mem_range, List.mem_map, Prod.exists,
    List.mem_zipIdx_iff_getElem?, Array.getElem?_toList, Nat.lt_succ_iff]
  constructor
  · rintro ⟨origin, horigin, v, parts, k, hrule, dot, hdot, rfl⟩
    exact ⟨v, parts, hrule, hdot, horigin⟩
  · rintro ⟨v, parts, hrule, hdot, horigin⟩
    exact ⟨i.origin, horigin, v, parts, i.rule, hrule, i.dot, hdot, rfl⟩

theorem length_items (c : Chart) (n : Nat) : (c.items n).length = c.dots * (n + 1) := by
  have hsum : ∀ (rules : List (String × List Part)) m,
      rules.foldl (fun count rule => count + rule.2.length + 1) m =
        m + (rules.map (·.2.length + 1)).sum := by
    intro rules
    induction rules with
    | nil => exact fun _ => rfl
    | cons rule rules ih =>
      intro m
      rw [List.foldl_cons, ih, List.map_cons, List.sum_cons]
      omega
  have hdots : (c.rules.toList.zipIdx.map fun rule => rule.1.2.length + 1).sum = c.dots := by
    have hfst := congrArg (List.map fun rule : String × List Part => rule.2.length + 1)
      (List.zipIdx_map_fst 0 c.rules.toList)
    have hsum := hsum c.rules.toList 0
    rw [List.map_map] at hfst
    rw [Array.foldl_toList, Nat.zero_add] at hsum
    rw [dots, hsum, ← hfst]
    rfl
  simp only [items, List.length_flatMap, List.length_map, List.length_range, hdots,
    List.map_const', List.sum_replicate_nat]
  exact Nat.mul_comm _ _

/-- The loop that makes the column after some tokens ends, without a bound on its turns, and the
column is what it has found by then. -/
def Finishes (c : Chart) (u : List String) : Prop :=
  ∃ found, Spreads .queue (c.successors (c.earlier u)) (c.starts u) found ∧
    found.seen = c.column u

/-! ### The laws of the columns -/

theorem startItem_mem_column : startItem ∈ c.column [] :=
  mem_spread_of_start (List.mem_singleton_self _)

theorem advance_mem_column (hi : i ∈ c.column u) (ht : c.next? i = some (.terminal t)) :
    i.advance ∈ c.column (u ++ [t]) := by
  rw [column_append]
  exact mem_spread_of_start (mem_scans_getD.2 ⟨i, hi, ht, rfl⟩)

section Indexed

variable (hc : c.Indexed)
include hc

theorem Indexed.inRange_startItem : c.InRange n startItem := by
  obtain ⟨v, parts, h⟩ := hc.start
  exact ⟨v, parts, h, Nat.zero_le _, Nat.zero_le _⟩

theorem Indexed.inRange_predict (hk : k ∈ c.rulesOf.getD v []) : c.InRange n ⟨k, 0, n⟩ := by
  obtain ⟨parts, h⟩ := (hc.mem_rulesOf v k).1 hk
  exact ⟨v, parts, h, Nat.zero_le _, Nat.le_refl _⟩

theorem Indexed.inRange_column : ∀ i ∈ c.column u, c.InRange u.length i := by
  apply column_induction (P := fun u i => c.InRange u.length i)
  · exact hc.inRange_startItem
  · exact fun u t i hi ht => (hi.advance ht).mono (by simp)
  · exact fun u i v _ _ k hk => hc.inRange_predict hk
  · exact fun u i v hi hv _ => hi.advance hv
  · exact fun u i v j _ _ _ hj hv => (hj.advance hv).mono (List.length_take_le' ..)

theorem Indexed.starts_subset : ∀ i ∈ c.starts u, i ∈ c.items u.length := by
  intro j hj
  rw [mem_items_iff]
  rcases mem_starts_iff.1 hj with ⟨rfl, rfl⟩ | ⟨x, t, rfl, i, hi, ht, rfl⟩
  · exact hc.inRange_startItem
  · exact ((hc.inRange_column i hi).advance ht).mono (by simp)

theorem Indexed.successors_subset (hs : ∀ j ∈ s, j ∈ c.items u.length)
    (hi : i ∈ c.items u.length) :
    ∀ j ∈ c.successors (c.earlier u) s i, j ∈ c.items u.length := by
  simp only [mem_items_iff] at hs hi ⊢
  intro j hj
  rcases mem_successors_iff.1 hj with ⟨v, hv, ⟨k, hk, rfl⟩ | ⟨-, rfl⟩⟩ | ⟨v, -, -, h⟩
  · rw [size_earlier]
    exact hc.inRange_predict hk
  · exact hi.advance hv
  · obtain ⟨j', hj', hnext, rfl⟩ := mem_waiting.1 h
    rw [getElem?_earlier_getD] at hj'
    split at hj'
    · exact ((hc.inRange_column j' hj').advance hnext).mono (List.length_take_le' ..)
    · exact (hs j' hj').advance hnext

theorem Indexed.finishes (u : List String) : c.Finishes u := by
  have hbound : (c.items u.length).length ≤ c.dots * ((c.earlier u).size + 1) :=
    Nat.le_of_eq (by rw [length_items, size_earlier])
  rw [Finishes, column_eq]
  exact ⟨_, spreads_spread hc.starts_subset (fun s hs i hi => hc.successors_subset hs hi) hbound,
    rfl⟩

/-- The successors of an item were put in when some of the column was there. -/
theorem Indexed.successors_mem (hi : i ∈ c.column u) :
    ∃ s : Column, (∀ j ∈ s, j ∈ c.column u) ∧
      ∀ j ∈ c.successors (c.earlier u) s i, j ∈ c.column u := by
  obtain ⟨found, hspreads, hseen⟩ := hc.finishes u
  rw [← hseen] at hi ⊢
  exact (hspreads.sound.visited i hi).resolve_left List.not_mem_nil

theorem Indexed.predict_mem (hi : i ∈ c.column u) (hv : c.next? i = some (.variable v))
    (hk : k ∈ c.rulesOf.getD v []) : ⟨k, 0, u.length⟩ ∈ c.column u := by
  obtain ⟨s, -, hsucc⟩ := hc.successors_mem hi
  apply hsucc
  exact mem_successors_iff.2 (.inl ⟨v, hv, .inl ⟨k, hk, by rw [size_earlier]⟩⟩)

theorem Indexed.skip_mem (hi : i ∈ c.column u) (hv : c.next? i = some (.variable v))
    (hnull : v ∈ c.nullable) : i.advance ∈ c.column u := by
  obtain ⟨s, -, hsucc⟩ := hc.successors_mem hi
  apply hsucc
  exact mem_successors_iff.2 (.inl ⟨v, hv, .inr ⟨hnull, rfl⟩⟩)

/-- Only a rule that began in an earlier column is sure to find all items that wait for it. -/
theorem Indexed.complete_mem (hi : i ∈ c.column u) (hnone : c.next? i = none)
    (hv : c.head? i = some v) (hlt : i.origin < u.length) (hj : j ∈ c.column (u.take i.origin))
    (hnext : c.next? j = some (.variable v)) : j.advance ∈ c.column u := by
  obtain ⟨s, -, hsucc⟩ := hc.successors_mem hi
  apply hsucc
  apply mem_successors_iff.2 (.inr ⟨v, hnone, hv, mem_waiting.2 ⟨j, ?_, hnext, rfl⟩⟩)
  rw [getElem?_earlier_getD, if_pos hlt]
  exact hj

end Indexed

/-- A column with an item follows one where its last token was expected. -/
theorem exists_scan_of_mem (hi : i ∈ c.column (u ++ [t])) :
    ∃ j ∈ c.column u, c.next? j = some (.terminal t) := by
  rw [column_append] at hi
  apply spread_induction (P := fun _ => ∃ j ∈ c.column u, c.next? j = some (.terminal t)) _ _ i hi
  · intro j hj
    obtain ⟨j', hj', ht, -⟩ := mem_scans_getD.1 hj
    exact ⟨j', hj', ht⟩
  · exact fun s _ j hj _ _ => hj

theorem exists_mem_of_append (hi : i ∈ c.column (u ++ w)) : ∃ j, j ∈ c.column u := by
  induction w using List.reverseRecOn generalizing i with
  | nil => exact ⟨i, by rwa [List.append_nil] at hi⟩
  | append_singleton w t ih =>
    rw [← List.append_assoc] at hi
    obtain ⟨j, hj, -⟩ := exists_scan_of_mem hi
    exact ih hj

end FormalLanguages.Chart
