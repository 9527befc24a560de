import FormalLanguages.Proofs.Comparison.Listing
import Mathlib.Data.Set.Card

/-!
# Texts of sentences

The text of a sentence is its tokens one after another. The listing has the texts of a length, unless
there are more than can be counted, and then the other listing of the same length is empty if the
budget allowed for both. So the two listings differ as the two sets of texts do. If every token is a
single character, a text has one sentence only, and the texts are in the order of the sentences.
-/

namespace FormalLanguages

open Std

/-- The least text of a set, or `none` if it has no text. -/
inductive LeastText? (S : Set String) : Option String → Prop
  | found {t : String} (least : IsLeast S t) : LeastText? S (some t)
  | missing (empty : S = ∅) : LeastText? S none

theorem leastText?_head? (s : ExtTreeSet String) : LeastText? {t | t ∈ s} s.toList.head? := by
  cases hs : s.toList with
  | nil =>
    refine .missing (Set.eq_empty_of_forall_notMem fun t ht => ?_)
    have ht : t ∈ s.toList := ExtTreeSet.mem_toList.2 ht
    rw [hs] at ht
    exact List.not_mem_nil ht
  | cons t ts =>
    have hordered := s.ordered_toList
    rw [hs, List.pairwise_cons] at hordered
    refine .found ⟨?_, fun u hu => ?_⟩
    · exact ExtTreeSet.mem_toList.1 (hs ▸ List.mem_cons_self)
    · have hu : u ∈ s.toList := ExtTreeSet.mem_toList.2 hu
      rw [hs] at hu
      rcases List.mem_cons.1 hu with rfl | hu
      · exact le_rfl
      · exact (compareOfLessAndEq_eq_lt.1 (hordered.1 u hu)).le

/-- There is one least text at most. -/
theorem LeastText?.eq_iff {S : Set String} {x y : Option String} (h : LeastText? S x) :
    y = x ↔ LeastText? S y := by
  constructor
  · rintro rfl
    exact h
  · intro h'
    cases h with
    | found hx =>
      cases h' with
      | found hy => exact congrArg some (hy.unique hx)
      | missing hempty => exact absurd hx.1 (hempty ▸ Set.notMem_empty _)
    | missing hempty =>
      cases h' with
      | found hy => exact absurd hy.1 (hempty ▸ Set.notMem_empty _)
      | missing _ => rfl

namespace Chart

variable {c d : Chart} {n : Nat} {t : String}

theorem mem_allTexts_of_counted (h : t ∈ c.countedTexts n) : t ∈ c.allTexts n :=
  List.mem_of_mem_take (mem_countedTexts.1 h)

/-- All texts are counted, or as many as can be. -/
def Counts (c : Chart) (n : Nat) : Prop :=
  (∀ t, t ∈ c.allTexts n → t ∈ c.countedTexts n) ∨ (c.countedTexts n).size = Budget.maxCount

theorem counts_of_length_le (h : (c.allTexts n).length ≤ Budget.maxCount) : c.Counts n := by
  refine .inl fun t ht => mem_countedTexts.2 ?_
  rwa [List.take_of_length_le h]

theorem counts_of_nodup (h : (c.allTexts n).Nodup) : c.Counts n := by
  rcases Nat.le_total (c.allTexts n).length Budget.maxCount with hle | hle
  · exact counts_of_length_le hle
  · exact .inr (by rw [size_countedTexts h, Nat.min_eq_left hle])

theorem lengthCost_comm (c d : Chart) (n : Nat) : lengthCost c d n = lengthCost d c n :=
  Nat.add_comm _ _

theorem size_pos_of_mem {s : ExtTreeSet String} (h : t ∈ s) : 0 < s.size := by
  refine Nat.pos_of_ne_zero fun hsize => ?_
  rw [ExtTreeSet.eq_empty_iff_size_eq_zero.2 hsize] at h
  exact ExtTreeSet.not_mem_empty h

section Compared

variable (hc : c.Counts n) (hd : d.Counts n) (h : lengthCost c d n ≤ Budget.maxCount)

include hd h in
/-- A listing of which something is missing leaves nothing to the other. -/
theorem Counts.mem_of_counted (ht : t ∈ c.countedTexts n) (hall : t ∈ d.allTexts n) :
    t ∈ d.countedTexts n := by
  rcases hd with hd | hd
  · exact hd t hall
  · have hpos := size_pos_of_mem ht
    rw [lengthCost] at h
    omega

include hd h in
theorem Counts.not_mem_of_not_counted (ht : t ∈ c.countedTexts n) (hnot : t ∉ d.countedTexts n) :
    t ∈ c.allTexts n ∧ t ∉ d.allTexts n :=
  ⟨mem_allTexts_of_counted ht, fun hall => hnot (hd.mem_of_counted h ht hall)⟩

include hc h in
/-- If something is missing in one listing, the other is not the same. -/
theorem Counts.complete_of_eq (heq : c.countedTexts n = d.countedTexts n)
    (ht : t ∈ c.allTexts n) : t ∈ c.countedTexts n := by
  rcases hc with hc | hc
  · exact hc t ht
  · have hmax : Budget.maxCount ≠ 0 := by decide
    rw [lengthCost, ← heq] at h
    omega

include hc hd h in
theorem Counts.countedTexts_eq_iff :
    c.countedTexts n = d.countedTexts n ↔ ∀ t, t ∈ c.allTexts n ↔ t ∈ d.allTexts n := by
  have h' : lengthCost d c n ≤ Budget.maxCount := lengthCost_comm c d n ▸ h
  constructor
  · intro heq t
    constructor
    · intro ht
      exact mem_allTexts_of_counted (heq ▸ hc.complete_of_eq h heq ht)
    · intro ht
      exact mem_allTexts_of_counted (heq ▸ hd.complete_of_eq h' heq.symm ht)
  · intro hsame
    apply ExtTreeSet.ext_mem
    intro t
    constructor
    · intro ht
      exact hd.mem_of_counted h ht ((hsame t).1 (mem_allTexts_of_counted ht))
    · intro ht
      exact hc.mem_of_counted h' ht ((hsame t).2 (mem_allTexts_of_counted ht))

include hc hd h in
/-- What the listing has first is the least of all texts, as those that are cut off are greater. -/
theorem Counts.leastText? (hlt : (c.allTexts n).Pairwise (· < ·)) :
    LeastText? {t | t ∈ c.allTexts n ∧ t ∉ d.allTexts n}
      (c.countedTexts n \ d.countedTexts n).toList.head? := by
  have hleast := leastText?_head? (c.countedTexts n \ d.countedTexts n)
  generalize (c.countedTexts n \ d.countedTexts n).toList.head? = t? at hleast
  have hdiff : ∀ t, t ∈ c.countedTexts n \ d.countedTexts n ↔
      t ∈ c.countedTexts n ∧ t ∉ d.countedTexts n := fun t => ExtTreeSet.mem_diff_iff
  cases hleast with
  | @found t least =>
    obtain ⟨ht, hnot⟩ := (hdiff t).1 least.1
    refine .found ⟨hd.not_mem_of_not_counted h ht hnot, fun u hu => ?_⟩
    by_cases hcounted : u ∈ c.countedTexts n
    · exact least.2 ((hdiff u).2 ⟨hcounted, fun hu' => hu.2 (mem_allTexts_of_counted hu')⟩)
    · have hsplit := List.take_append_drop Budget.maxCount (c.allTexts n)
      rw [← hsplit, List.pairwise_append] at hlt
      have hrest : u ∈ (c.allTexts n).drop Budget.maxCount := by
        have hmem := hu.1
        rw [← hsplit, List.mem_append] at hmem
        exact hmem.resolve_left fun htake => hcounted (mem_countedTexts.2 htake)
      exact (hlt.2.2 t (mem_countedTexts.1 ht) u hrest).le
  | missing hempty =>
    refine .missing (Set.eq_empty_of_forall_notMem fun u hu => ?_)
    have hnone : ∀ t, t ∈ c.countedTexts n → t ∈ d.countedTexts n := by
      intro t ht
      by_contra hnot
      exact Set.notMem_empty t (hempty ▸ (hdiff t).2 ⟨ht, hnot⟩)
    have hcounted : u ∉ c.countedTexts n :=
      fun hcounted => hu.2 (mem_allTexts_of_counted (hnone u hcounted))
    rcases hc with hc | hc
    · exact hcounted (hc u hu.1)
    · have hle := size_le_length (s := c.countedTexts n) (l := (d.countedTexts n).toList)
        fun t ht => ExtTreeSet.mem_toList.2 (hnone t ht)
      have hmax : Budget.maxCount ≠ 0 := by decide
      rw [ExtTreeSet.length_toList] at hle
      rw [lengthCost] at h
      omega

end Compared

end Chart

namespace Grammar

variable {g h : Grammar} {n : Nat} {t : String} {u v w : List String}

def sentencesOf (g : Grammar) (n : Nat) : Set (List String) := {w | w.length = n ∧ g.Derives w}

def textsOf (g : Grammar) (n : Nat) : Set String := String.join '' g.sentencesOf n

theorem WellFormed.mem_sentencesOf_iff (hg : g.WellFormed) :
    w ∈ g.sentencesOf n ↔ w ∈ g.generator.extending n [] :=
  hg.mem_extending_generator_iff.symm

theorem WellFormed.mem_textsOf_iff (hg : g.WellFormed) :
    t ∈ g.textsOf n ↔ t ∈ g.generator.allTexts n := by
  simp only [textsOf, Set.mem_image, hg.mem_sentencesOf_iff, Chart.allTexts, List.mem_map]

theorem WellFormed.nodup_allTexts_iff (hg : g.WellFormed) :
    (g.generator.allTexts n).Nodup ↔ Set.InjOn String.join (g.sentencesOf n) := by
  rw [Chart.allTexts, List.nodup_map_iff_inj_on (g.generator.nodup_extending n)]
  constructor
  · intro h v hv w hw
    exact h v (hg.mem_sentencesOf_iff.1 hv) w (hg.mem_sentencesOf_iff.1 hw)
  · intro h v hv w hw
    exact h (hg.mem_sentencesOf_iff.2 hv) (hg.mem_sentencesOf_iff.2 hw)

theorem WellFormed.ncard_sentencesOf (hg : g.WellFormed) (n : Nat) :
    (g.sentencesOf n).ncard = (g.generator.allTexts n).length := by
  have hset : g.sentencesOf n = ↑(g.generator.extending n []).toFinset := by
    ext w
    rw [hg.mem_sentencesOf_iff, Finset.mem_coe, List.mem_toFinset]
  rw [hset, Set.ncard_coe_finset, List.toFinset_card_of_nodup (g.generator.nodup_extending n),
    Chart.allTexts, List.length_map]

/-! ### Tokens of one character -/

def SingleLetters (g : Grammar) : Prop := ∀ t ∈ g.terminals, t.length = 1

/-- The words with `n` characters, each of them a token. -/
def wordsOf (g : Grammar) (n : Nat) : Set String :=
  {t | t.length = n ∧ g.Derives (t.toList.map Char.toString)}

theorem exists_toList_of_length (h : t.length = 1) : ∃ c, t.toList = [c] := by
  rw [← String.length_toList] at h
  exact List.length_eq_one_iff.1 h

theorem join_map_toString (cs : List Char) :
    String.join (cs.map Char.toString) = String.ofList cs := by
  apply String.toList_inj.1
  simp [String.toList_join, List.flatMap_map]

theorem map_toString_toList_join (h : ∀ t ∈ w, t.length = 1) :
    (String.join w).toList.map Char.toString = w := by
  induction w with
  | nil => rfl
  | cons t w ih =>
    obtain ⟨c, hc⟩ := exists_toList_of_length (h t List.mem_cons_self)
    have ht : c.toString = t := String.toList_inj.1 (by rw [hc]; exact String.toList_singleton c)
    rw [String.join_cons, String.toList_append, hc, List.map_append,
      ih fun t ht => h t (List.mem_cons_of_mem _ ht), List.map_singleton, ht, List.singleton_append]

/-- Texts of single characters are in the order of the sentences. -/
theorem join_lt_join (hu : ∀ t ∈ u, t.length = 1) (hv : ∀ t ∈ v, t.length = 1) (h : u < v) :
    String.join u < String.join v := by
  rw [String.lt_iff_toList_lt, String.toList_join, String.toList_join]
  induction u generalizing v with
  | nil =>
    cases v with
    | nil => exact absurd h (List.lt_irrefl [])
    | cons b v =>
      obtain ⟨y, hy⟩ := exists_toList_of_length (hv b List.mem_cons_self)
      rw [List.flatMap_cons, hy]
      exact List.nil_lt_cons _ _
  | cons a u ih =>
    cases v with
    | nil => exact absurd h (List.not_lt_nil _)
    | cons b v =>
      rw [List.flatMap_cons, List.flatMap_cons]
      rcases List.cons_lt_cons_iff.1 h with hab | ⟨rfl, huv⟩
      · obtain ⟨x, hx⟩ := exists_toList_of_length (hu a List.mem_cons_self)
        obtain ⟨y, hy⟩ := exists_toList_of_length (hv b List.mem_cons_self)
        rw [String.lt_iff_toList_lt, hx, hy, List.cons_lt_cons_iff] at hab
        rw [hx, hy]
        exact List.cons_lt_cons_iff.2 (.inl (hab.resolve_right fun h => List.lt_irrefl [] h.2))
      · apply List.append_left_lt
        exact ih (fun t ht => hu t (List.mem_cons_of_mem _ ht))
          (fun t ht => hv t (List.mem_cons_of_mem _ ht)) huv

theorem SingleLetters.length_of_derives (h1 : g.SingleLetters) (hw : g.Derives w) :
    ∀ t ∈ w, t.length = 1 :=
  fun t ht => h1 t (hw.mem_terminals t ht)

theorem SingleLetters.mem_wordsOf_iff (h1 : g.SingleLetters) : t ∈ g.wordsOf n ↔ t ∈ g.textsOf n := by
  constructor
  · rintro ⟨hlength, hderives⟩
    refine ⟨t.toList.map Char.toString, ⟨?_, hderives⟩, ?_⟩
    · rw [List.length_map, String.length_toList, hlength]
    · rw [join_map_toString, String.ofList_toList]
  · rintro ⟨w, ⟨hlength, hderives⟩, rfl⟩
    have hback := map_toString_toList_join (h1.length_of_derives hderives)
    refine ⟨?_, hback.symm ▸ hderives⟩
    rw [← String.length_toList, ← List.length_map Char.toString, hback, hlength]

theorem SingleLetters.wordsOf_eq (h1 : g.SingleLetters) (n : Nat) : g.wordsOf n = g.textsOf n :=
  Set.ext fun _ => h1.mem_wordsOf_iff

theorem SingleLetters.injOn_join (h1 : g.SingleLetters) (n : Nat) :
    Set.InjOn String.join (g.sentencesOf n) := by
  intro v hv w hw heq
  rw [← map_toString_toList_join (h1.length_of_derives hv.2), heq,
    map_toString_toList_join (h1.length_of_derives hw.2)]

theorem WellFormed.ascending_allTexts (hg : g.WellFormed) (h1 : g.SingleLetters) (n : Nat) :
    (g.generator.allTexts n).Pairwise (· < ·) := by
  rw [Chart.allTexts, List.pairwise_map]
  apply Chart.extending_ascending.imp_of_mem
  intro v w hv hw hlt
  exact join_lt_join (h1.length_of_derives (hg.mem_sentencesOf_iff.2 hv).2)
    (h1.length_of_derives (hg.mem_sentencesOf_iff.2 hw).2) hlt

theorem WellFormed.ncard_wordsOf (hg : g.WellFormed) (h1 : g.SingleLetters) (n : Nat) :
    (g.wordsOf n).ncard = (g.generator.allTexts n).length := by
  rw [h1.wordsOf_eq, textsOf, (h1.injOn_join n).ncard_image, hg.ncard_sentencesOf]

theorem WellFormed.finite_wordsOf (hg : g.WellFormed) (h1 : g.SingleLetters) (n : Nat) :
    (g.wordsOf n).Finite := by
  refine (g.generator.allTexts n).finite_toSet.subset fun t ht => ?_
  exact hg.mem_textsOf_iff.1 (h1.mem_wordsOf_iff.1 ht)

end Grammar

end FormalLanguages
