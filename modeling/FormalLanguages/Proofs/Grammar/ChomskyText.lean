import FormalLanguages.Proofs.Grammar.Chomsky
import FormalLanguages.Proofs.Grammar.Printing
import FormalLanguages.Requests

/-!
# The normal form as text

The names in a grammar that was read can be written, and so can the names that are made from them
by adding numbers. A name that stands before an arrow only could not stand behind one, but in the
normal form each variable other than the start stands in a rule.
-/

namespace FormalLanguages.Grammar

open Std Relation
open Text (isBlank not_isBlank_of_isDigit)

variable {g : Grammar} {b r : Rule} {base s u v : String} {taken : List String} {n : Nat}
  {text : List Char}

/-! ### Names with numbers -/

/-- A name that can stand on both sides of an arrow. -/
def IsName (s : String) : Prop := IsHead s ∧ IsWord s

theorem toList_numbered (base : String) (n : Nat) :
    (numbered base n).toList = base.toList ++ Nat.toDigits 10 n := by
  rw [numbered, String.toList_append, Nat.toString_eq_repr, Nat.toList_repr]

theorem not_arrow_infix_append {t d : List Char} (h : ¬ arrow <:+: t) (hd : '>' ∉ d) :
    ¬ arrow <:+: t ++ d := by
  induction d generalizing t with
  | nil => simpa using h
  | cons c d ih =>
    rw [List.mem_cons, not_or] at hd
    rw [List.append_cons]
    exact ih (not_arrow_infix_concat h (Ne.symm hd.1)) hd.2

/-- Only a single character can be another way to write the empty word. -/
theorem normalizeEpsilon_numbered (h : base.toList ≠ []) :
    normalizeEpsilon (numbered base n).toList = (numbered base n).toList ∧
      (numbered base n).toList ≠ [epsilon] := by
  have hlength : 2 ≤ (numbered base n).toList.length := by
    have hbase := List.length_pos_iff.2 h
    have hdigits := List.length_pos_iff.2 (Nat.toDigits_ne_nil (b := 10) (n := n))
    rw [toList_numbered, List.length_append]
    omega
  match h : (numbered base n).toList with
  | [] => simp [h] at hlength
  | [c] => simp [h] at hlength
  | _ :: _ :: _ => simp [normalizeEpsilon]

theorem not_isBlank_of_mem_numbered (h : ∀ c ∈ base.toList, ¬ isBlank c) :
    ∀ c ∈ (numbered base n).toList, ¬ isBlank c := by
  intro c hc
  rw [toList_numbered, List.mem_append] at hc
  rcases hc with hc | hc
  · exact h c hc
  · exact not_isBlank_of_isDigit (Nat.isDigit_of_mem_toDigits (by decide) (by decide) hc)

theorem IsHead.numbered (h : IsHead base) (n : Nat) : IsHead (numbered base n) := by
  obtain ⟨hnormal, hε⟩ := normalizeEpsilon_numbered (n := n) h.ne_nil
  refine ⟨?_, not_isBlank_of_mem_numbered h.not_blank, ?_, ?_⟩
  · rw [toList_numbered]
    exact List.append_ne_nil_of_left_ne_nil h.ne_nil _
  · rwa [hnormal]
  · rw [toList_numbered]
    exact not_arrow_infix_append h.not_arrow (not_mem_toDigits (by decide) n)

theorem IsWord.numbered (h : IsWord base) (n : Nat) : IsWord (numbered base n) := by
  refine ⟨?_, not_isBlank_of_mem_numbered h.not_blank, ?_, (normalizeEpsilon_numbered h.ne_nil).1⟩
  · rw [toList_numbered]
    exact List.append_ne_nil_of_left_ne_nil h.ne_nil _
  · rw [toList_numbered, List.mem_append, not_or]
    exact ⟨h.not_bar, not_mem_toDigits (by decide) n⟩

theorem IsName.numbered (h : IsName base) (n : Nat) : IsName (numbered base n) :=
  ⟨h.1.numbered n, h.2.numbered n⟩

theorem IsName.unusedName (h : IsName base) (taken : List String) :
    IsName (FormalLanguages.unusedName base taken) := by
  unfold FormalLanguages.unusedName
  split
  · exact h.numbered _
  · exact h

theorem not_blank_of_all (h : s.toList.all (! isBlank ·)) : ∀ c ∈ s.toList, ¬ isBlank c := by
  simpa using h

theorem isName_S0 : IsName "S0" :=
  ⟨⟨by decide, not_blank_of_all (by decide), by decide, by decide⟩,
    ⟨by decide, not_blank_of_all (by decide), by decide, by decide⟩⟩

theorem isName_U : IsName "U" :=
  ⟨⟨by decide, not_blank_of_all (by decide), by decide, by decide⟩,
    ⟨by decide, not_blank_of_all (by decide), by decide, by decide⟩⟩

/-! ### The names in the normal form -/

/-- In a trimmed grammar each variable but the start stands in a rule. -/
theorem WellFormed.exists_rule_of_mem_trim (hg : g.WellFormed) (hv : v ∈ g.trim.vars) :
    v = g.start ∨ ∃ u, ∃ r ∈ g.trim.rules u, v ∈ r := by
  by_cases h : ∃ w, g.Derives w
  · rcases ((hg.trimmed_trim h).accessible v hv).cases_tail with heq | ⟨u, -, r, hr, hvr⟩
    · exact .inl (heq.trans (start_trim g))
    · exact .inr ⟨u, r, hr, hvr⟩
  · left
    rw [hg.trim_eq_empty (not_exists.1 h)] at hv
    exact List.mem_singleton.1 hv

/-- The symbols of the rules that are left stood in rules before; the old start, too, since the
rule that leads to it is gone. -/
theorem WellFormed.exists_rule_of_prepared (hg : g.WellFormed) (hbase : base ≠ epsilonSymbol)
    (hb : b ∈ (g.augmentStart base).eliminateEpsilon.eliminateUnits.rules u) (hv : v ∈ b)
    (hne : v ≠ epsilonSymbol) : ∃ x, ∃ r ∈ g.rules x, v ∈ r := by
  have haugment := hg.augmentStart hbase
  obtain ⟨s, hs, heq, -⟩ := haugment.exists_stripping
  rw [heq, hs.wellFormed.mem_rules_eliminateUnits] at hb
  obtain ⟨hunit, x, -, hb⟩ := hb
  obtain ⟨r, hr, ⟨c, hc, rfl⟩, -⟩ := (hs.mem_rules x b).1 hb
  have hvc : v ∈ c := by
    rcases Rule.mem_collapse hv with ⟨hvc, -⟩ | hε
    · exact hvc
    · rw [hε] at hv
      exact absurd (List.mem_singleton.1 hv) hne
  rcases hg.mem_rules_augmentStart.1 hr with ⟨-, rfl⟩ | hr
  · exfalso
    apply hunit
    obtain rfl : c = [g.start] := by
      rcases Rule.expands_singleton_iff.1 hc with h | ⟨-, h⟩
      · exact h
      · rw [h] at hvc
        cases hvc
    rw [hg.collapse_start] at hb ⊢
    refine isUnitRule_iff.2 ⟨g.start, ?_, rfl⟩
    rcases hs.wellFormed.symbol_of_mem hb (List.mem_singleton_self _) with h | h | h
    · exact absurd (h ▸ start_mem_vars g) hg.epsilon_not_variable
    · rw [hs.terminals, terminals_augmentStart] at h
      exact absurd h (hg.disjoint _ (start_mem_vars g))
    · exact h
  · exact ⟨x, r, hr, hc.subset_of_erasing v hvc⟩

theorem WellFormed.start_prepared (hg : g.WellFormed) (hbase : base ≠ epsilonSymbol) :
    (g.augmentStart base).eliminateEpsilon.eliminateUnits.start = g.unusedName base := by
  obtain ⟨s, hs, heq, -⟩ := (hg.augmentStart hbase).exists_stripping
  obtain ⟨s', hs', heq', -⟩ := hs.wellFormed.exists_unfolding
  rw [heq, heq', hs'.start, hs.start, start_augmentStart]

/-- Before terminals are isolated there is one name that was not in the text. -/
theorem WellFormed.isName_prepared (hg : g.WellFormed)
    (hname : ∀ u, ∀ r ∈ g.rules u, ∀ v ∈ r, v ∈ g.vars → IsName v) :
    ∀ v ∈ ((g.trim.augmentStart "S0").eliminateEpsilon.eliminateUnits).trim.vars, IsName v := by
  intro v hv
  have hbase : "S0" ≠ epsilonSymbol := by decide
  have htrim := hg.equivalent_trim.wellFormed
  have hunits := (htrim.augmentStart hbase).equivalent_eliminateEpsilon.wellFormed
    |>.equivalent_eliminateUnits.wellFormed
  obtain ⟨hprepared, -⟩ := hg.prepared
  rcases hunits.exists_rule_of_mem_trim hv with rfl | ⟨u, r, hr, hvr⟩
  · rw [htrim.start_prepared hbase]
    exact isName_S0.unusedName _
  · have hne := hprepared.wellFormed.ne_epsilon hv
    obtain ⟨x, r, hr, hvr⟩ :=
      htrim.exists_rule_of_prepared hbase (hunits.mem_rules_of_trim hr) hvr hne
    have hr := hg.mem_rules_of_trim hr
    apply hname x r hr v hvr
    rcases hg.symbol_of_mem hr hvr with h | h | h
    · exact absurd h hne
    · rw [← hprepared.terminals] at h
      exact absurd h (hprepared.wellFormed.disjoint v hv)
    · exact h

theorem WellFormed.isName_isolateTerminals (hg : g.WellFormed) (hname : ∀ v ∈ g.vars, IsName v) :
    ∀ v ∈ g.isolateTerminals.vars, IsName v := by
  obtain ⟨hs, -⟩ := Isolating.From.isolating hg
  intro v hv
  rcases hs.named v hv with hv | ⟨n, taken, rfl⟩
  · exact hname v hv
  · exact (isName_U.numbered n).unusedName taken

theorem WellFormed.isName_binarize (hg : g.WellFormed) (hname : ∀ v ∈ g.vars, IsName v) :
    ∀ v ∈ g.binarize.vars, IsName v := by
  obtain ⟨owner, hs, -⟩ := Cutting.from_cutting hg
  intro v hv
  rcases hs.new v hv with hv | ⟨t, ht⟩
  · exact hname v hv
  · obtain ⟨u, hu, n, rfl⟩ := hs.named t v ht
    exact (hname u hu).numbered n

theorem WellFormed.isName_toChomsky (hg : g.WellFormed)
    (hname : ∀ u, ∀ r ∈ g.rules u, ∀ v ∈ r, v ∈ g.vars → IsName v) :
    ∀ v ∈ g.toChomsky.vars, IsName v := by
  obtain ⟨hprepared, -⟩ := hg.prepared
  have hisolate := hprepared.wellFormed.equivalent_isolateTerminals.wellFormed
  intro v hv
  apply hisolate.isName_binarize _ v (mem_vars_of_mem_trim hv)
  exact hprepared.wellFormed.isName_isolateTerminals (hg.isName_prepared hname)

/-! ### The text of the normal form -/

/-- The symbols in the normal form of a grammar that was read are words, and its variables are
names. -/
theorem writable_toChomsky (hread : parseInferring text = .ok g) : g.toChomsky.Writable := by
  have hg := wellFormed_parse (epsilon_not_inferred text) hread
  have hname : ∀ v ∈ g.toChomsky.vars, IsName v := by
    apply hg.isName_toChomsky
    intro u r hr v hv hvar
    exact ⟨isHead_of_parseInferring hread hvar, isWord_of_parse hread hr hv⟩
  obtain ⟨hequiv, -⟩ := hg.normalized
  refine ⟨fun v hv => (hname v hv).1, fun v r hr s hs => ?_⟩
  rcases hequiv.wellFormed.symbol_of_mem hr hs with rfl | hs | hs
  · exact isWord_epsilon
  · obtain ⟨ps, -, hterm, -⟩ := exists_of_parse hread
    rw [hequiv.terminals, hterm] at hs
    exact (mem_inferredTerminals.1 hs).2.1.isWord
  · exact (hname s hs).2

/-- A grammar with the same rules is in normal form, too, if it has their terminals. -/
theorem IsChomskyRule.of_same {h : Grammar} (hg : g.WellFormed) (hrule : g.IsChomskyRule v b)
    (start : h.start = g.start) (vars : ∀ v, v ∈ h.vars ↔ v ∈ g.vars)
    (terminals : ∀ t ∈ b, t ∈ g.terminals → t ∈ h.terminals) : h.IsChomskyRule v b := by
  have hothers : ∀ x ∈ g.others, x ∈ h.others := by
    intro x hx
    apply mem_others_of_ne ((vars x).2 (List.mem_cons_of_mem _ hx))
    rw [start]
    exact hg.ne_start hx
  rcases hrule with ⟨rfl, rfl⟩ | ⟨t, ht, rfl⟩ | ⟨x, hx, y, hy, rfl⟩
  · exact .inl ⟨rfl, start.symm⟩
  · exact .inr (.inl ⟨t, terminals t (List.mem_singleton_self t) ht, rfl⟩)
  · exact .inr (.inr ⟨x, hothers x hx, y, hothers y hy, rfl⟩)

/-- The text of the normal form says the same as the normal form. -/
theorem grammarToChomsky_read_back (hread : parseInferring text = .ok g) :
    ∃ out h, Requests.grammarToChomsky text = .ok out ∧ parseInferring out = .ok h ∧
      h.isChomsky = true ∧ h.start = g.toChomsky.start ∧
      (∀ v, v ∈ h.vars ↔ v ∈ g.toChomsky.vars) ∧ (∀ v, h.rules v = g.toChomsky.rules v) ∧
      ∀ w, h.Derives w ↔ g.Derives w := by
  have hg := wellFormed_parse (epsilon_not_inferred text) hread
  obtain ⟨hequiv, hshape, -⟩ := hg.normalized
  obtain ⟨h, hh, hwf, hstart, hvars, hrules, hterm, hderives⟩ :=
    parseInferring_print hequiv.wellFormed (writable_toChomsky hread)
  refine ⟨_, h, ?_, hh, ?_, hstart, hvars, hrules,
    fun w => (hderives w).trans (hequiv.derives w)⟩
  · rw [Requests.grammarToChomsky, hread]
    rfl
  · apply isChomsky_iff.2
    intro v b hb
    rw [hrules] at hb
    apply hwf.isChomskyRule ((hshape v b hb).of_same hequiv.wellFormed hstart hvars ?_)
    exact fun t ht hterminal => (hterm t).2 ⟨hterminal, v, b, hb, ht⟩

/-- Only the start of this text has a name that could not stand behind an arrow. -/
theorem grammarToChomsky_barred : ∃ g out h,
    parseInferring "A|B -> a X b | ~\nX -> -> | X X".toList = .ok g ∧
    Requests.grammarToChomsky "A|B -> a X b | ~\nX -> -> | X X".toList = .ok out ∧
    parseInferring out = .ok h ∧ h.isChomsky = true := by
  have hstart : (parseInferring "A|B -> a X b | ~\nX -> -> | X X".toList).map Grammar.start =
      .ok "A|B" := by decide +kernel
  obtain ⟨g, hread, -⟩ := exists_of_map_eq_ok hstart
  obtain ⟨out, h, hout, hh, hchomsky, -⟩ := grammarToChomsky_read_back hread
  exact ⟨g, out, h, hread, hout, hh, hchomsky⟩

end FormalLanguages.Grammar
