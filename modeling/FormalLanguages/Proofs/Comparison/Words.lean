import FormalLanguages.Proofs.Comparison.ContextFree
import Mathlib.Data.List.OfFn
import Mathlib.SetTheory.Cardinal.Finite

/-!
# Comparing words

If every terminal is a single character, sentences are words, and the verdict is determined by the
sets of words of each length: the first length that differs is reported if all words up to it are
within the budget. Only a number of words that cannot be counted in 64 bits escapes the greatest budget.
-/

namespace FormalLanguages

open Std Finset Chart

namespace Grammar

variable {g h : Grammar} {budget : Budget} {n : Nat} {left right : Option String}

noncomputable def wordCount (g h : Grammar) (n : Nat) : Nat :=
  ∑ m ∈ range (n + 1), ((g.wordsOf m).ncard + (h.wordsOf m).ncard)

/-- At most `maxCount` words of each length and grammar are counted. -/
noncomputable def cappedWordCount (g h : Grammar) (n : Nat) : Nat :=
  ∑ m ∈ range (n + 1),
    (min (g.wordsOf m).ncard Budget.maxCount + min (h.wordsOf m).ncard Budget.maxCount)

/-- The cap can only be seen with the greatest budget. -/
theorem cappedWordCount_le_iff {r : Nat} (hr : r < Budget.maxCount) :
    cappedWordCount g h n ≤ r ↔ wordCount g h n ≤ r := by
  constructor
  · intro hle
    have huncapped : cappedWordCount g h n = wordCount g h n := by
      refine sum_congr rfl fun m hm => ?_
      have hone := (single_le_sum (f := fun m =>
        min (g.wordsOf m).ncard Budget.maxCount + min (h.wordsOf m).ncard Budget.maxCount)
        (fun _ _ => Nat.zero_le _) hm).trans hle
      omega
    exact huncapped ▸ hle
  · intro hle
    refine (sum_le_sum fun m _ => ?_).trans hle
    exact Nat.add_le_add (Nat.min_le_left _ _) (Nat.min_le_left _ _)

/-- The first length of which the grammars have different words. -/
def DifferAt (g h : Grammar) (n : Nat) : Prop :=
  (∀ m < n, g.wordsOf m = h.wordsOf m) ∧ g.wordsOf n ≠ h.wordsOf n

theorem SingleLetters.legible (hg1 : g.SingleLetters) (hh1 : h.SingleLetters) :
    g.Legible h budget :=
  .inl fun n _ => ⟨hg1.injOn_join n, hh1.injOn_join n⟩

section SingleLetters

variable (hg : g.WellFormed) (hh : h.WellFormed) (hg1 : g.SingleLetters) (hh1 : h.SingleLetters)

include hg hg1 in
theorem WellFormed.size_countedTexts (n : Nat) :
    (g.generator.countedTexts n).size = min (g.wordsOf n).ncard Budget.maxCount := by
  have hnodup := hg.nodup_allTexts_iff.2 (hg1.injOn_join n)
  rw [Chart.size_countedTexts hnodup, hg.ncard_wordsOf hg1, Nat.min_comm]

include hg hh hg1 hh1 in
theorem mem_within_iff : n ∈ g.within h budget ↔
    n ≤ budget.maxLength ∧ cappedWordCount g h n ≤ budget.maxTexts := by
  simp only [within, affordable, lengthCost, hg.size_countedTexts hg1, hh.size_countedTexts hh1,
    cappedWordCount, range_eq_Ico, Set.mem_ofPred_eq, Nat.zero_le, true_and, Nat.zero_add,
    Nat.lt_succ_iff]

variable (hmax : budget.maxTexts ≤ Budget.maxCount)

include hg hh hg1 hh1 hmax in
theorem findDifference_eq_different_iff_differAt :
    g.findDifference h budget = .different n left right ↔
      (n ≤ budget.maxLength ∧ cappedWordCount g h n ≤ budget.maxTexts) ∧ g.DifferAt h n ∧
      LeastText? (g.wordsOf n \ h.wordsOf n) left ∧
      LeastText? (h.wordsOf n \ g.wordsOf n) right := by
  have hlegible : g.Legible h budget := hg1.legible hh1
  rw [hlegible.findDifference_eq_different_iff hg hh hmax, ← mem_within_iff hg hh hg1 hh1, DifferAt,
    and_assoc]
  simp only [hg1.wordsOf_eq, hh1.wordsOf_eq]
  refine and_congr_right fun hn => and_congr_right fun _ => and_congr_right fun _ => ?_
  obtain ⟨hcg, hch⟩ := hlegible.counts hg hh hmax (Nat.le_of_lt_succ (Nat.zero_add _ ▸ hn.2.1))
  have hcost := (lengthCost_le hn).trans hmax
  have hl := hcg.leastText? hch hcost (hg.ascending_allTexts hg1 n)
  have hr := hch.leastText? hcg (lengthCost_comm _ _ n ▸ hcost) (hh.ascending_allTexts hh1 n)
  simp only [← hg.mem_textsOf_iff, ← hh.mem_textsOf_iff] at hl hr
  exact and_congr hl.eq_iff hr.eq_iff

include hg hh hg1 hh1 hmax in
theorem exists_different_of_differAt (hn : n ≤ budget.maxLength)
    (hcount : cappedWordCount g h n ≤ budget.maxTexts) (hdiffer : g.DifferAt h n) :
    ∃ left right, g.findDifference h budget = .different n left right := by
  have hlegible : g.Legible h budget := hg1.legible hh1
  simp only [DifferAt, hg1.wordsOf_eq, hh1.wordsOf_eq] at hdiffer
  exact ⟨_, _, (hlegible.findDifference_eq_different_iff hg hh hmax).2
    ⟨(mem_within_iff hg hh hg1 hh1).2 ⟨hn, hcount⟩, hdiffer.1, hdiffer.2, rfl, rfl⟩⟩

include hg hh hg1 hh1 hmax in
theorem findDifference_eq_inconclusive_iff_differAt {last : Option Nat} :
    g.findDifference h budget = .inconclusive last ↔
      (∀ n ≤ budget.maxLength, cappedWordCount g h n ≤ budget.maxTexts → ¬ g.DifferAt h n) ∧
      LastOf {n | n ≤ budget.maxLength ∧ cappedWordCount g h n ≤ budget.maxTexts} none last := by
  have hlegible : g.Legible h budget := hg1.legible hh1
  have hwithin : g.within h budget =
      {n | n ≤ budget.maxLength ∧ cappedWordCount g h n ≤ budget.maxTexts} :=
    Set.ext fun _ => mem_within_iff hg hh hg1 hh1
  rw [hlegible.findDifference_eq_inconclusive_iff hg hh hmax, ← hwithin]
  refine and_congr_left fun _ => ?_
  simp only [← hg1.wordsOf_eq, ← hh1.wordsOf_eq]
  constructor
  · intro hsame n hn hcount hdiffer
    exact hdiffer.2 (hsame n ((mem_within_iff hg hh hg1 hh1).2 ⟨hn, hcount⟩))
  · intro hnone n
    -- the lengths that can be compared begin at zero, so a difference has a first one
    induction n using Nat.strong_induction_on with
    | _ n ih =>
      intro hn
      by_contra hne
      obtain ⟨hlength, hcount⟩ := (mem_within_iff hg hh hg1 hh1).1 hn
      exact hnone n hlength hcount
        ⟨fun m hm => ih m hm (affordable_of_le hn m.zero_le hm.le), hne⟩

end SingleLetters

/-- Which verdict is given on grammars whose terminals are single characters. -/
theorem findDifference_exact (hg : g.WellFormed) (hh : h.WellFormed) (hg1 : g.SingleLetters)
    (hh1 : h.SingleLetters) (hmax : budget.maxTexts ≤ Budget.maxCount) :
    (∀ n, (g.wordsOf n).Finite ∧ (h.wordsOf n).Finite) ∧
    (∀ n left right, g.findDifference h budget = .different n left right ↔
      (n ≤ budget.maxLength ∧ cappedWordCount g h n ≤ budget.maxTexts) ∧ g.DifferAt h n ∧
      LeastText? (g.wordsOf n \ h.wordsOf n) left ∧
      LeastText? (h.wordsOf n \ g.wordsOf n) right) ∧
    (∀ last, g.findDifference h budget = .inconclusive last ↔
      (∀ n ≤ budget.maxLength, cappedWordCount g h n ≤ budget.maxTexts → ¬ g.DifferAt h n) ∧
      LastOf {n | n ≤ budget.maxLength ∧ cappedWordCount g h n ≤ budget.maxTexts} none last) ∧
    (budget.maxTexts < Budget.maxCount → ∀ n,
      cappedWordCount g h n ≤ budget.maxTexts ↔ wordCount g h n ≤ budget.maxTexts) :=
  ⟨fun n => ⟨hg.finite_wordsOf hg1 n, hh.finite_wordsOf hh1 n⟩,
    fun _ _ _ => findDifference_eq_different_iff_differAt hg hh hg1 hh1 hmax,
    fun _ => findDifference_eq_inconclusive_iff_differAt hg hh hg1 hh1 hmax,
    fun hlt _ => cappedWordCount_le_iff hlt⟩

/-- The words of equally many letters up to a length of two, by one rule for each. -/
def nestedOnce : Grammar := listed ["a", "b"] [Rule.epsilon, ["a", "b"]]

theorem findDifference_exact_nested :
    nested.WellFormed ∧ nestedOnce.WellFormed ∧ nested.SingleLetters ∧ nestedOnce.SingleLetters ∧
    ({} : Budget).maxTexts ≤ Budget.maxCount ∧
    nested.findDifference nestedOnce {} = .different 4 (some "aabb") none ∧
    nested.DifferAt nestedOnce 4 ∧ wordCount nested nestedOnce 4 ≤ ({} : Budget).maxTexts := by
  have hletters : ∀ t ∈ ["a", "b"], t.length = 1 := by decide
  have hnested : nested.SingleLetters := by
    intro t ht
    exact hletters t (by simpa [nested, Grammar.empty] using ht)
  have hnestedOnce : nestedOnce.SingleLetters :=
    fun t ht => hletters t (mem_terminals_listed.1 ht)
  have hwellFormed : nestedOnce.WellFormed := wellFormed_listed _ (by decide) (by decide)
  have hmax : ({} : Budget).maxTexts ≤ Budget.maxCount := by decide
  have hverdict : nested.findDifference nestedOnce {} = .different 4 (some "aabb") none := by
    decide +kernel
  obtain ⟨-, hdifferent, -, huncapped⟩ :=
    findDifference_exact nested_wellFormed hwellFormed hnested hnestedOnce hmax
  obtain ⟨⟨-, hcount⟩, hdiffer, -⟩ := (hdifferent _ _ _).1 hverdict
  exact ⟨nested_wellFormed, hwellFormed, hnested, hnestedOnce, hmax, hverdict, hdiffer,
    (huncapped (by decide) 4).1 hcount⟩

/-! ### More words than can be counted -/

variable {t : String} {w : List String} {k m : Nat}

def binary (n : Nat) : Grammar :=
  (Grammar.empty (.ofList ["a", "b"]) "S").addRules
    [("S", List.replicate n "T"), ("T", ["a"]), ("T", ["b"])]

theorem wellFormed_binary (n : Nat) : (binary n).WellFormed := by
  apply wellFormed_of_rules <;> simp [epsilonSymbol]

theorem mem_terminals_binary : t ∈ (binary n).terminals ↔ t = "a" ∨ t = "b" := by
  rw [binary, terminals_addRules]
  simp [Grammar.empty]

theorem singleLetters_binary (n : Nat) : (binary n).SingleLetters := by
  intro t ht
  rcases mem_terminals_binary.1 ht with rfl | rfl <;> rfl

theorem binary_yields_letter_iff : (binary n).Yields ["T"] w ↔ w = ["a"] ∨ w = ["b"] := by
  have hrules : ∀ b, b ∈ (binary n).rules "T" ↔ b = ["a"] ∨ b = ["b"] := by
    intro b
    have ha : Rule.collapse ["a"] = ["a"] := by decide
    have hb : Rule.collapse ["b"] = ["b"] := by decide
    simp [binary, mem_rules_addRules, ha, hb, @eq_comm _ b]
  have hT : "T" ∈ (binary n).vars :=
    (wellFormed_binary n).mem_vars_of_rule ((hrules ["a"]).2 (.inl rfl))
  rw [(wellFormed_binary n).yields_variable_iff hT]
  simp only [hrules, exists_eq_or_imp, exists_eq_left,
    (wellFormed_binary n).yields_terminal_iff (mem_terminals_binary.2 (.inl rfl)),
    (wellFormed_binary n).yields_terminal_iff (mem_terminals_binary.2 (.inr rfl))]

theorem binary_yields_replicate_iff : (binary n).Yields (List.replicate k "T") w ↔
    w.length = k ∧ ∀ t ∈ w, t = "a" ∨ t = "b" := by
  induction k generalizing w with
  | zero =>
    rw [List.replicate_zero, yields_nil_iff, List.length_eq_zero_iff]
    constructor
    · rintro rfl
      exact ⟨rfl, fun t ht => absurd ht List.not_mem_nil⟩
    · exact And.left
  | succ k ih =>
    rw [List.replicate_succ]
    constructor
    · intro h
      obtain ⟨x, y, rfl, hx, hy⟩ := h.exists_of_cons
      obtain ⟨rfl, hletters⟩ := ih.1 hy
      rcases binary_yields_letter_iff.1 hx with rfl | rfl <;> simpa using hletters
    · rintro ⟨hlength, hletters⟩
      obtain ⟨t, w, rfl⟩ := List.exists_cons_of_length_eq_add_one hlength
      obtain ⟨ht, hw⟩ := List.forall_mem_cons.1 hletters
      have hletter : (binary n).Yields ["T"] [t] :=
        binary_yields_letter_iff.2 (ht.imp (congrArg (List.cons · [])) (congrArg (List.cons · [])))
      exact hletter.append (ih.2 ⟨Nat.succ.inj hlength, hw⟩)

theorem binary_derives_iff : (binary n).Derives w ↔
    w.length = n ∧ ∀ t ∈ w, t = "a" ∨ t = "b" := by
  have hstart : (binary n).start = "S" := by simp [binary, Grammar.empty]
  have hrules : ∀ b, b ∈ (binary n).rules "S" ↔ b = Rule.collapse (List.replicate n "T") := by
    intro b
    simp [binary, mem_rules_addRules, eq_comm]
  rw [Derives, (wellFormed_binary n).yields_variable_iff (start_mem_vars _), hstart]
  simp only [hrules, exists_eq_left, (wellFormed_binary n).yields_collapse_iff]
  exact binary_yields_replicate_iff

theorem mem_wordsOf_binary : t ∈ (binary n).wordsOf m ↔
    t.length = m ∧ m = n ∧ ∀ c ∈ t.toList, c = 'a' ∨ c = 'b' := by
  have hletter : ∀ c : Char, (c.toString = "a" ∨ c.toString = "b") ↔ (c = 'a' ∨ c = 'b') := by
    intro c
    simp [← String.toList_inj]
  refine and_congr_right fun hm => ?_
  rw [binary_derives_iff, List.length_map, String.length_toList, hm, List.forall_mem_map]
  simp only [hletter]

theorem wordsOf_binary_eq_empty (h : m ≠ n) : (binary n).wordsOf m = ∅ :=
  Set.eq_empty_of_forall_notMem fun _ ht => h (mem_wordsOf_binary.1 ht).2.1

def spell (bits : Fin n → Bool) : String :=
  String.ofList (List.ofFn fun i => if bits i then 'b' else 'a')

theorem spell_injective : Function.Injective (spell (n := n)) := by
  intro x y hxy
  have hfn := List.ofFn_injective (String.ofList_inj.1 hxy)
  funext i
  have hi := congrFun hfn i
  cases hx : x i <;> cases hy : y i <;> simp_all

theorem two_pow_le_ncard_wordsOf_binary (n : Nat) : 2 ^ n ≤ ((binary n).wordsOf n).ncard := by
  have hsub : Set.range (spell (n := n)) ⊆ (binary n).wordsOf n := by
    rintro _ ⟨bits, rfl⟩
    refine mem_wordsOf_binary.2 ⟨by simp [spell], rfl, fun c hc => ?_⟩
    rw [spell, String.toList_ofList, List.mem_ofFn] at hc
    obtain ⟨i, rfl⟩ := hc
    cases bits i
    · exact .inl rfl
    · exact .inr rfl
  have hcard : (Set.range (spell (n := n))).ncard = 2 ^ n := by
    rw [Set.ncard_range_of_injective spell_injective, Nat.card_fun, Nat.card_eq_fintype_card,
      Fintype.card_bool, Nat.card_fin]
  rw [← hcard]
  exact Set.ncard_le_ncard hsub
    ((wellFormed_binary n).finite_wordsOf (singleLetters_binary n) n)

/-- There are more words than can be counted, but with the greatest budget as many as can be counted
are taken for all of them. So a difference is reported that is not within the budget. -/
theorem difference_of_uncounted_words :
    (binary 64).WellFormed ∧ (binary 65).WellFormed ∧
    (binary 64).SingleLetters ∧ (binary 65).SingleLetters ∧
    Budget.maxCount < wordCount (binary 64) (binary 65) 64 ∧
    ∃ left right, (binary 64).findDifference (binary 65) ⟨64, Budget.maxCount⟩ =
      .different 64 left right := by
  have hempty : ∀ m < 64, (binary 64).wordsOf m = ∅ ∧ (binary 65).wordsOf m = ∅ := by
    intro m hm
    exact ⟨wordsOf_binary_eq_empty (by omega), wordsOf_binary_eq_empty (by omega)⟩
  have hright : (binary 65).wordsOf 64 = ∅ := wordsOf_binary_eq_empty (by decide)
  have hcard := two_pow_le_ncard_wordsOf_binary 64
  have hlarge : Budget.maxCount < 2 ^ 64 := by decide
  have hwithin : cappedWordCount (binary 64) (binary 65) 64 ≤ Budget.maxCount := by
    have hzero : ∑ m ∈ range 64, (min ((binary 64).wordsOf m).ncard Budget.maxCount +
        min ((binary 65).wordsOf m).ncard Budget.maxCount) = 0 := by
      refine sum_eq_zero fun m hm => ?_
      obtain ⟨hg, hh⟩ := hempty m (mem_range.1 hm)
      rw [hg, hh, Set.ncard_empty, Nat.zero_min, Nat.add_zero]
    rw [cappedWordCount, sum_range_succ, hzero, hright, Set.ncard_empty, Nat.zero_min]
    omega
  have hdiffer : (binary 64).DifferAt (binary 65) 64 := by
    refine ⟨fun m hm => (hempty m hm).1.trans (hempty m hm).2.symm, fun heq => ?_⟩
    rw [heq, hright, Set.ncard_empty] at hcard
    omega
  refine ⟨wellFormed_binary 64, wellFormed_binary 65, singleLetters_binary 64,
    singleLetters_binary 65, ?_, ?_⟩
  · have hone := single_le_sum (f := fun m => ((binary 64).wordsOf m).ncard +
      ((binary 65).wordsOf m).ncard) (fun _ _ => Nat.zero_le _) (self_mem_range_succ 64)
    rw [wordCount]
    omega
  · exact exists_different_of_differAt (wellFormed_binary 64) (wellFormed_binary 65)
      (singleLetters_binary 64) (singleLetters_binary 65) le_rfl le_rfl hwithin hdiffer

end Grammar

end FormalLanguages
