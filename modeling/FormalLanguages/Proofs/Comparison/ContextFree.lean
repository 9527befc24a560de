import FormalLanguages.Proofs.Comparison.Texts
import FormalLanguages.Proofs.Grammar.WellFormed

/-!
# What the comparison of grammars says

The comparison goes through the lengths while the budget lasts. If sentences of one length have
different texts, or the budget has room for all sentences, then a verdict is about the texts of all
sentences, and it is known exactly which one is given. Otherwise sentences with the same text can hide
that a list was cut.
-/

namespace FormalLanguages

open Std Finset Chart

namespace Grammar

variable {g h : Grammar} {budget : Budget} {n : Nat} {left right : Option String}

/-- No list of sentences can be cut without showing it: sentences of one length and one grammar have
different texts, or the budget has room for all sentences. -/
def Legible (g h : Grammar) (budget : Budget) : Prop :=
  (∀ n ≤ budget.maxLength,
    Set.InjOn String.join (g.sentencesOf n) ∧ Set.InjOn String.join (h.sentencesOf n)) ∨
  ∑ n ∈ range (budget.maxLength + 1), ((g.sentencesOf n).ncard + (h.sentencesOf n).ncard) ≤
    budget.maxTexts

def within (g h : Grammar) (budget : Budget) : Set Nat :=
  affordable g.generator h.generator 0 (budget.maxLength + 1) budget.maxTexts

section Legible

variable (hg : g.WellFormed) (hh : h.WellFormed) (hmax : budget.maxTexts ≤ Budget.maxCount)
  (hlegible : g.Legible h budget)

include hg hh hlegible in
theorem Legible.fair :
    Fair g.generator h.generator 0 (budget.maxLength + 1) budget.maxTexts := by
  rcases hlegible with hinj | hroom
  · refine .inl fun m _ hm => ?_
    rw [hg.nodup_allTexts_iff, hh.nodup_allTexts_iff]
    exact hinj m (by omega)
  · right
    simpa only [hg.ncard_sentencesOf, hh.ncard_sentencesOf, range_eq_Ico, Nat.zero_add] using hroom

include hg hh hmax hlegible in
theorem Legible.counts (hn : n ≤ budget.maxLength) :
    g.generator.Counts n ∧ h.generator.Counts n := by
  rcases hlegible with hinj | hroom
  · have hn := hinj n hn
    rw [← hg.nodup_allTexts_iff, ← hh.nodup_allTexts_iff] at hn
    exact ⟨counts_of_nodup hn.1, counts_of_nodup hn.2⟩
  · have hle := (single_le_sum (f := fun n => (g.sentencesOf n).ncard + (h.sentencesOf n).ncard)
      (fun _ _ => Nat.zero_le _) (mem_range_succ_iff.2 hn)).trans (hroom.trans hmax)
    simp only [hg.ncard_sentencesOf, hh.ncard_sentencesOf] at hle
    exact ⟨counts_of_length_le (by omega), counts_of_length_le (by omega)⟩

/-! ### Which verdict is given -/

include hg hh hmax hlegible in
theorem Legible.countedTexts_eq_iff (hn : n ∈ g.within h budget) :
    g.generator.countedTexts n = h.generator.countedTexts n ↔ g.textsOf n = h.textsOf n := by
  have hcounts := hlegible.counts hg hh hmax (Nat.le_of_lt_succ (Nat.zero_add _ ▸ hn.2.1))
  rw [hcounts.1.countedTexts_eq_iff hcounts.2 ((lengthCost_le hn).trans hmax), Set.ext_iff]
  simp only [hg.mem_textsOf_iff, hh.mem_textsOf_iff]

include hg hh hmax hlegible in
/-- A difference is reported at the first length where the sets of texts differ. -/
theorem Legible.findDifference_eq_different_iff :
    g.findDifference h budget = .different n left right ↔
      n ∈ g.within h budget ∧ (∀ m < n, g.textsOf m = h.textsOf m) ∧ g.textsOf n ≠ h.textsOf n ∧
      left = (g.generator.countedTexts n \ h.generator.countedTexts n).toList.head? ∧
      right = (h.generator.countedTexts n \ g.generator.countedTexts n).toList.head? := by
  rw [findDifference, (hlegible.fair hg hh).compareLengths_eq_different_iff hmax]
  refine and_congr_right fun hn => ?_
  have hsame : ∀ m ≤ n, g.generator.countedTexts m = h.generator.countedTexts m ↔
      g.textsOf m = h.textsOf m :=
    fun m hm => hlegible.countedTexts_eq_iff hg hh hmax (affordable_of_le hn m.zero_le hm)
  rw [Ne, hsame n le_rfl]
  refine and_congr_left fun _ => forall_congr' fun m => ?_
  constructor
  · intro heq hm
    exact (hsame m hm.le).1 (heq m.zero_le hm)
  · intro heq _ hm
    exact (hsame m hm.le).2 (heq hm)

include hg hh hmax hlegible in
theorem Legible.findDifference_eq_inconclusive_iff {last : Option Nat} :
    g.findDifference h budget = .inconclusive last ↔
      (∀ n ∈ g.within h budget, g.textsOf n = h.textsOf n) ∧
      LastOf (g.within h budget) none last := by
  rw [findDifference, (hlegible.fair hg hh).compareLengths_eq_inconclusive_iff hmax]
  refine and_congr_left fun _ => forall₂_congr fun n hn => ?_
  exact hlegible.countedTexts_eq_iff hg hh hmax hn

end Legible

/-! ### Texts of more than one sentence -/

def listed (terminals : List String) (ws : List (List String)) : Grammar :=
  (Grammar.empty (.ofList terminals) "S").addRules (ws.map fun w => ("S", w))

theorem mem_terminals_listed {terminals : List String} {ws : List (List String)} {t : String} :
    t ∈ (listed terminals ws).terminals ↔ t ∈ terminals := by
  simp [listed, Grammar.empty]

theorem wellFormed_listed {terminals : List String} (ws : List (List String))
    (hε : epsilonSymbol ∉ terminals) (hstart : "S" ∉ terminals) :
    (listed terminals ws).WellFormed := by
  have hmem : ∀ t, t ∈ (ExtTreeSet.ofList terminals : ExtTreeSet String) ↔ t ∈ terminals := by
    simp
  have hhead : "S" ∉ (ExtTreeSet.ofList terminals : ExtTreeSet String) ∧ "S" ≠ epsilonSymbol :=
    ⟨(hmem _).not.2 hstart, by decide⟩
  apply wellFormed_of_rules ((hmem _).not.2 hε) hhead
  intro rule hrule
  obtain ⟨w, -, rfl⟩ := List.mem_map.1 hrule
  exact hhead

def runs : List String := ["a", "aa", "aaa", "aaaa", "aaaaa", "b"]

/-- A text that is written in five ways, and another. -/
def fiveWays : Grammar :=
  listed runs [["a", "aaaaa"], ["aa", "aaaa"], ["aaa", "aaa"], ["aaaa", "aa"], ["aaaaa", "a"],
    ["b", "b"]]

/-- The same texts, each written in one way. -/
def oneWay : Grammar := listed runs [["aaa", "aaa"], ["b", "b"]]

theorem wellFormed_fiveWays : fiveWays.WellFormed := wellFormed_listed _ (by decide) (by decide)

theorem wellFormed_oneWay : oneWay.WellFormed := wellFormed_listed _ (by decide) (by decide)

/-- A text that is reported is one of its own side, of the length that is reported. If no cut can be
hidden, the other side does not have it, and lengths that are reported as compared have the same
texts. -/
theorem findDifference_sound (hg : g.WellFormed) (hh : h.WellFormed) :
    (∀ n left right, g.findDifference h budget = .different n left right →
      (∀ t, left = some t → t ∈ g.textsOf n) ∧ (∀ t, right = some t → t ∈ h.textsOf n)) ∧
    (budget.maxTexts ≤ Budget.maxCount → g.Legible h budget →
      (∀ n left right, g.findDifference h budget = .different n left right →
        (∀ t, left = some t → t ∉ h.textsOf n) ∧ (∀ t, right = some t → t ∉ g.textsOf n)) ∧
      ∀ n, g.findDifference h budget = .inconclusive (some n) →
        ∀ m ≤ n, g.textsOf m = h.textsOf m) := by
  refine ⟨fun n left right hdifferent => ?_, fun hmax hlegible => ⟨fun n left right hdifferent => ?_,
    fun n hinconclusive m hmn => ?_⟩⟩
  · simp only [hg.mem_textsOf_iff, hh.mem_textsOf_iff]
    exact mem_allTexts_of_different hdifferent
  · obtain ⟨hn, -, -, rfl, rfl⟩ :=
      (hlegible.findDifference_eq_different_iff hg hh hmax).1 hdifferent
    obtain ⟨hcg, hch⟩ := hlegible.counts hg hh hmax (Nat.le_of_lt_succ (Nat.zero_add _ ▸ hn.2.1))
    have hcost := (lengthCost_le hn).trans hmax
    constructor
    · intro t ht
      obtain ⟨htg, hth⟩ := mem_diff_of_head? ht.symm
      exact hh.mem_textsOf_iff.not.2 (hch.not_mem_of_not_counted hcost htg hth).2
    · intro t ht
      obtain ⟨hth, htg⟩ := mem_diff_of_head? ht.symm
      rw [lengthCost_comm] at hcost
      exact hg.mem_textsOf_iff.not.2 (hcg.not_mem_of_not_counted hcost hth htg).2
  · obtain ⟨hsame, hlast⟩ :=
      (hlegible.findDifference_eq_inconclusive_iff hg hh hmax).1 hinconclusive
    cases hlast with
    | found hgreatest => exact hsame m (affordable_of_le hgreatest.1 m.zero_le hmn)

/-- With room for all sentences nothing is cut, and the comparison ends with both languages equal. -/
theorem findDifference_sound_fiveWays :
    fiveWays.WellFormed ∧ oneWay.WellFormed ∧ (8 : Nat) ≤ Budget.maxCount ∧
    fiveWays.Legible oneWay ⟨2, 8⟩ ∧
    fiveWays.findDifference oneWay ⟨2, 8⟩ = .inconclusive (some 2) ∧
    ∀ m ≤ 2, fiveWays.textsOf m = oneWay.textsOf m := by
  have hlegible : fiveWays.Legible oneWay ⟨2, 8⟩ := by
    right
    simp only [wellFormed_fiveWays.ncard_sentencesOf, wellFormed_oneWay.ncard_sentencesOf]
    decide +kernel
  have hverdict : fiveWays.findDifference oneWay ⟨2, 8⟩ = .inconclusive (some 2) := by
    decide +kernel
  have hsound := (findDifference_sound wellFormed_fiveWays wellFormed_oneWay).2 (by decide) hlegible
  exact ⟨wellFormed_fiveWays, wellFormed_oneWay, by decide, hlegible, hverdict,
    hsound.2 2 hverdict⟩

/-- With room for four texts, five sentences are listed of the first grammar. They have one text,
so the budget is not exceeded, and the other text is taken for one of the second grammar only. -/
theorem difference_of_hidden_cut :
    fiveWays.WellFormed ∧ oneWay.WellFormed ∧ fiveWays.terminals = oneWay.terminals ∧
    fiveWays.findDifference oneWay ⟨2, 4⟩ = .different 2 none (some "bb") ∧
    "bb" ∈ fiveWays.textsOf 2 := by
  refine ⟨wellFormed_fiveWays, wellFormed_oneWay, by decide +kernel, by decide +kernel, ?_⟩
  rw [wellFormed_fiveWays.mem_textsOf_iff]
  decide +kernel

end Grammar

end FormalLanguages
