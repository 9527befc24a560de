import FormalLanguages.Proofs.Grammar.Reading

/-!
# Grammars written as text

The text of a grammar is read back as the same grammar, if its names can be written at all. When
the terminals are inferred from it, those that occur in no rule are lost.
-/

namespace FormalLanguages.Grammar

open Std
open Text (cut fields isBlank lines split)

variable {T : ExtTreeSet String} {g : Grammar} {b r : Rule} {s u v : String} {t : List Char}

/-- The names of such a grammar can be written in a text. -/
structure Writable (g : Grammar) : Prop where
  isHead : ∀ v ∈ g.vars, IsHead v
  isWord : ∀ v, ∀ r ∈ g.rules v, ∀ s ∈ r, IsWord s

/-! ### One line -/

theorem fields_printRule (h : ∀ s ∈ r, IsWord s) : fields (printRule r) = r.map String.toList := by
  apply Text.fields_intercalate
  intro w hw
  obtain ⟨s, hs, rfl⟩ := List.mem_map.1 hw
  exact ⟨(h s hs).ne_nil, (h s hs).not_blank⟩

theorem map_readSymbol_fields_printRule (h : ∀ s ∈ r, IsWord s) :
    (fields (printRule r)).map readSymbol = r := by
  rw [fields_printRule h, List.map_map]
  have hself : ∀ s ∈ r, (readSymbol ∘ String.toList) s = s := by
    intro s hs
    rw [Function.comp_apply, readSymbol, (h s hs).normal, String.ofList_toList]
  rw [List.map_congr_left hself, List.map_id']

theorem mem_printRule (h : ∀ s ∈ r, IsWord s) {c : Char} (hc : c ∈ printRule r) :
    c = ' ' ∨ c ≠ '|' ∧ ¬ isBlank c := by
  rcases Text.mem_intercalate hc with hc | ⟨w, hw, hc⟩
  · exact .inl (List.mem_singleton.1 hc)
  · obtain ⟨s, hs, rfl⟩ := List.mem_map.1 hw
    exact .inr ⟨fun e => (h s hs).not_bar (e ▸ hc), (h s hs).not_blank c hc⟩

def ruleTexts (g : Grammar) (v : String) : List (List Char) :=
  ((g.rules v).toList.map printRule).mergeSort fun s t => (compare s t).isLE

theorem mem_ruleTexts : t ∈ g.ruleTexts v ↔ ∃ r ∈ g.rules v, printRule r = t := by
  simp [ruleTexts, List.mem_mergeSort]

theorem printVariable_eq (g : Grammar) (v : String) : g.printVariable v =
    (v.toList ++ ['\t']) ++ arrow ++ ' ' :: List.intercalate " | ".toList (g.ruleTexts v) := by
  have hmark : "\t-> ".toList = ['\t', '-', '>', ' '] := by decide
  simp [printVariable, hmark, arrow, ruleTexts]

theorem not_arrow_infix_concat {c : Char} (h : ¬ arrow <:+: t) (hc : c ≠ '>') :
    ¬ arrow <:+: t ++ [c] := by
  rw [List.infix_concat_iff]
  rintro (⟨l, hl⟩ | h')
  · have hlast := congrArg List.getLast? hl
    simp [arrow, Ne.symm hc] at hlast
  · exact h h'

theorem cut_printVariable (hv : IsHead v) : cut arrow (g.printVariable v) =
    some (v.toList ++ ['\t'], ' ' :: List.intercalate " | ".toList (g.ruleTexts v)) := by
  refine (Text.cut_eq_some_iff arrow_ne_nil).2 ⟨printVariable_eq g v, ?_⟩
  apply not_arrow_infix_concat _ (by decide)
  exact not_arrow_infix_concat hv.not_arrow (by decide)

/-- The texts between the bars are found again. -/
theorem map_fields_split_intercalate {ts : List (List Char)} (hne : ts ≠ [])
    (h : ∀ t ∈ ts, '|' ∉ t) :
    (split (· == '|') (' ' :: List.intercalate " | ".toList ts)).map fields = ts.map fields := by
  have hpiece : ∀ t : List Char, '|' ∉ t → ∀ c ∈ t, ¬ (c == '|') := by
    intro t ht c hc e
    exact ht (beq_iff_eq.1 e ▸ hc)
  induction ts with
  | nil => exact absurd rfl hne
  | cons t ts ih =>
    have ht := h t (List.mem_cons_self ..)
    cases ts with
    | nil =>
      rw [List.intercalate_singleton, Text.split_eq_singleton (hpiece _ (by simpa using ht)),
        List.map_singleton, Text.fields_blank_cons (by decide), List.map_singleton]
    | cons t' ts =>
      have hcons : ' ' :: List.intercalate " | ".toList (t :: t' :: ts) =
          (' ' :: t ++ [' ']) ++ '|' :: ' ' :: List.intercalate " | ".toList (t' :: ts) := by
        rw [List.intercalate_cons_cons]
        simp
      rw [hcons, Text.split_append_cons (by decide), List.map_append,
        Text.split_eq_singleton (hpiece _ (by simpa using ht)),
        ih (List.cons_ne_nil _ _) fun t ht => h t (List.mem_cons_of_mem _ ht), List.map_singleton,
        Text.fields_append_blank fun c => Text.isBlank_of_mem_singleton (by decide),
        Text.fields_blank_cons (by decide)]
      rfl

def written (g : Grammar) (v : String) : Production :=
  { head := v
    rules := (g.ruleTexts v).map fun t => (fields t).map readSymbol }

theorem Writable.mem_rules_written (hg : g.Writable) :
    r ∈ (g.written v).rules ↔ r ∈ g.rules v := by
  have hread := fun r hr => map_readSymbol_fields_printRule (hg.isWord v r hr)
  simp only [written, List.mem_map, mem_ruleTexts]
  constructor
  · rintro ⟨_, ⟨r, hr, rfl⟩, rfl⟩
    rwa [hread r hr]
  · exact fun hr => ⟨_, ⟨r, hr, rfl⟩, hread r hr⟩

theorem Writable.bar_not_mem (hg : g.Writable) (ht : t ∈ g.ruleTexts v) : '|' ∉ t := by
  obtain ⟨r, hr, rfl⟩ := mem_ruleTexts.1 ht
  intro h
  rcases mem_printRule (hg.isWord v r hr) h with h | h
  · exact absurd h (by decide)
  · exact h.1 rfl

theorem Writable.fields_ne_nil (hrules : g.Tidy) (hg : g.Writable) (ht : t ∈ g.ruleTexts v) :
    fields t ≠ [] := by
  obtain ⟨r, hr, rfl⟩ := mem_ruleTexts.1 ht
  rw [fields_printRule (hg.isWord v r hr), ne_eq, List.map_eq_nil_iff]
  exact hrules.ne_nil hr

theorem readProduction?_printVariable (hrules : g.Tidy) (hg : g.Writable) (hv : v ∈ g.vars)
    (hT : v ∉ T) : readProduction? T (g.printVariable v) = some (g.written v) := by
  have hhead := hg.isHead v hv
  have htrim : Text.trim (v.toList ++ ['\t']) = v.toList := by
    refine Text.trim_append (l := []) (by simp)
      (fun c => Text.isBlank_of_mem_singleton (by decide)) ?_ ?_
    · exact fun c hc => hhead.not_blank c (List.mem_of_mem_head? hc)
    · exact fun c hc => hhead.not_blank c (List.mem_of_mem_getLast? hc)
  refine readProduction?_eq_some_iff.2 ⟨_, _, cut_printVariable hhead, ?_⟩
  refine ⟨?_, ?_, ?_, hT, ?_, ?_⟩
  · rw [htrim, String.ofList_toList]
    rfl
  · rw [htrim]
    exact hhead.ne_nil
  · rw [htrim]
    exact hhead.not_blank
  · rw [htrim]
    exact hhead.not_epsilon
  · by_cases hnil : g.ruleTexts v = []
    · left
      simp only [hnil, written, List.map_nil, and_true, Text.trim_eq_nil_iff]
      exact fun c => Text.isBlank_of_mem_singleton (by decide)
    · right
      have hfields := map_fields_split_intercalate hnil fun t => hg.bar_not_mem
      have hne := fun t (ht : t ∈ g.ruleTexts v) => hg.fields_ne_nil hrules ht
      obtain ⟨t, ht⟩ := List.exists_mem_of_ne_nil _ hnil
      constructor
      · intro hblank
        -- the pieces of a blank text have no fields
        have hmem : fields t ∈ (g.ruleTexts v).map fields := List.mem_map_of_mem ht
        rw [← hfields] at hmem
        obtain ⟨piece, hpiece, heq⟩ := List.mem_map.1 hmem
        apply hne t ht
        rw [← heq, Text.fields_eq_nil fun c hc =>
          Text.trim_eq_nil_iff.1 hblank c (Text.mem_of_mem_split hpiece hc).1]
      · rw [hfields, written, List.forall₂_map_left_iff, List.forall₂_map_right_iff,
          List.forall₂_same]
        exact fun t ht => ⟨hne t ht, rfl⟩

/-! ### The whole text -/

section Print

variable (htidy : g.Tidy) (hg : g.Writable)
include hg

theorem lines_print : lines g.print = g.vars.map g.printVariable := by
  apply Text.lines_intercalate (by simp [vars])
  intro line hline hmem
  obtain ⟨v, hv, rfl⟩ := List.mem_map.1 hline
  rw [printVariable_eq] at hmem
  simp only [List.mem_append, List.mem_cons, List.not_mem_nil, or_false] at hmem
  rcases hmem with ((hmem | hmem) | hmem) | hmem | hmem
  · exact (hg.isHead v hv).not_blank _ hmem (by decide)
  · exact absurd hmem (by decide)
  · exact absurd hmem (by decide)
  · exact absurd hmem (by decide)
  · rcases Text.mem_intercalate hmem with hmem | ⟨t, ht, hmem⟩
    · exact absurd hmem (by decide)
    · obtain ⟨r, hr, rfl⟩ := mem_ruleTexts.1 ht
      rcases mem_printRule (hg.isWord v r hr) hmem with h | h
      · exact absurd h (by decide)
      · exact h.2 (by decide)

include htidy

theorem readProductions_print (hT : ∀ v ∈ g.vars, v ∉ T) :
    readProductions T g.print = .ok (g.vars.map g.written) := by
  have hfilter : ((lines g.print).filter fun line => Text.trim line ≠ []) =
      g.vars.map g.printVariable := by
    rw [lines_print hg, List.filter_eq_self]
    intro line hline
    obtain ⟨v, hv, rfl⟩ := List.mem_map.1 hline
    exact decide_eq_true (trim_ne_nil_of_cut (cut_printVariable (hg.isHead v hv)))
  rw [readProductions_eq_ok_iff, hfilter, List.forall₂_map_left_iff, List.forall₂_map_right_iff,
    List.forall₂_same]
  exact fun v hv => readProduction?_printVariable htidy hg hv (hT v hv)

theorem has_written_iff : (g.written v).Has u b ↔ v = u ∧ b ∈ g.rules u := by
  simp only [Production.Has, hg.mem_rules_written]
  constructor
  · rintro ⟨rfl, r, hr, rfl⟩
    rw [htidy.collapse_eq hr]
    exact ⟨rfl, hr⟩
  · rintro ⟨rfl, hb⟩
    exact ⟨rfl, b, hb, htidy.collapse_eq hb⟩

/-- The text is read over any set that has the terminals of the rules in it and no variables. -/
theorem parse_print (hT : ∀ v ∈ g.vars, v ∉ T)
    (hsym : ∀ v, ∀ r ∈ g.rules v, ∀ s ∈ r, s ∈ g.terminals → s ∈ T) :
    ∃ h, parse T g.print = .ok h ∧ h.start = g.start ∧ h.terminals = T ∧
      (∀ v, v ∈ h.vars ↔ v ∈ g.vars) ∧ ∀ v, h.rules v = g.rules v := by
  have hps := readProductions_print htidy hg hT
  have hread := parse_eq_ok_iff.2 ⟨g.written g.start, g.others.map g.written, hps, rfl⟩
  obtain ⟨ps, hps', hterm, hvars, hrules⟩ := exists_of_parse hread
  rw [hps, Except.ok.injEq] at hps'
  subst hps'
  refine ⟨_, hread, ?_, hterm, fun v => ?_, fun v => ?_⟩
  · rw [start_foldl_addProduction]
    rfl
  · simp only [hvars, List.mem_map, exists_exists_and_eq_and]
    constructor
    · rintro ⟨u, hu, rfl | ⟨r, hr, hv, hε, hT⟩⟩
      · exact hu
      · rw [hg.mem_rules_written] at hr
        rw [htidy.collapse_eq hr] at hv
        rcases htidy.symbol_of_mem hr hv with h | h | h
        · exact absurd h hε
        · exact absurd (hsym u r hr v hv h) hT
        · exact h
    · exact fun hv => ⟨v, hv, .inl rfl⟩
  · apply ExtTreeSet.ext_mem
    intro b
    simp only [hrules, List.mem_map, exists_exists_and_eq_and, has_written_iff htidy hg]
    exact ⟨fun ⟨u, _, _, hb⟩ => hb, fun hb => ⟨v, htidy.mem_vars_of_rule hb, rfl, hb⟩⟩

end Print

section Infer

variable (hwf : g.WellFormed) (hg : g.Writable)
include hwf hg

theorem mem_inferredTerminals_print :
    s ∈ inferredTerminals g.print ↔ s ∈ g.terminals ∧ ∃ v, ∃ r ∈ g.rules v, s ∈ r := by
  have hps := readProductions_print (T := ∅) hwf.tidy hg fun v _ => ExtTreeSet.not_mem_empty
  have hleft : OnLeft g.print s ↔ s ∈ g.vars := by
    simp [onLeft_iff hps, written]
  have hright : OnRight g.print s ↔ ∃ v, ∃ r ∈ g.rules v, s ∈ r := by
    simp only [onRight_iff hps, List.mem_map, exists_exists_and_eq_and, hg.mem_rules_written]
    exact ⟨fun ⟨v, _, h⟩ => ⟨v, h⟩, fun ⟨v, r, hr, hs⟩ => ⟨v, hwf.mem_vars_of_rule hr, r, hr, hs⟩⟩
  rw [mem_inferredTerminals, hleft, hright]
  constructor
  · rintro ⟨hε, ⟨v, r, hr, hs⟩, hvar⟩
    refine ⟨?_, v, r, hr, hs⟩
    exact ((hwf.symbol_of_mem hr hs).resolve_left hε).resolve_right hvar
  · rintro ⟨hterm, hrule⟩
    refine ⟨fun e => hwf.epsilon_not_terminal (e ▸ hterm), hrule, fun hvar => ?_⟩
    exact hwf.disjoint s hvar hterm

/-- What is read when the terminals are inferred differs in the terminals alone, and only in those
that occur in no rule. -/
theorem parseInferring_print : ∃ h, parseInferring g.print = .ok h ∧ h.WellFormed ∧
    h.start = g.start ∧ (∀ v, v ∈ h.vars ↔ v ∈ g.vars) ∧ (∀ v, h.rules v = g.rules v) ∧
    (∀ t, t ∈ h.terminals ↔ t ∈ g.terminals ∧ ∃ v, ∃ r ∈ g.rules v, t ∈ r) ∧
    ∀ w, h.Derives w ↔ g.Derives w := by
  have hmem := fun s => mem_inferredTerminals_print hwf hg (s := s)
  obtain ⟨h, hread, hstart, hterm, hvars, hrules⟩ :=
    parse_print (T := inferredTerminals g.print) hwf.tidy hg
      (fun v hv ht => hwf.disjoint v hv ((hmem v).1 ht).1)
      (fun v r hr s hs ht => (hmem s).2 ⟨ht, v, r, hr, hs⟩)
  have hh := wellFormed_parse (epsilon_not_inferred _) hread
  refine ⟨h, hread, hh, hstart, hvars, hrules, hterm ▸ hmem, fun w => ?_⟩
  rw [Derives, Derives, hstart]
  constructor
  · apply Yields.imp
    · exact fun t ht => ((hmem t).1 (hterm ▸ ht)).1
    · exact fun v b hb u _ hw => .of_rule (hrules v ▸ hb) hw
  · intro hw
    -- every terminal in a rule is read as one
    apply hw.imp_of_closed (P := fun s => s ∈ g.terminals → s ∈ h.terminals)
    · exact fun t ht himp => himp ht
    · intro v _ b hb
      exact ⟨hrules v ▸ hb, fun s hs ht => hterm ▸ (hmem s).2 ⟨ht, v, b, hb, hs⟩⟩
    · intro s hs ht
      rw [List.mem_singleton.1 hs] at ht
      exact absurd ht (hwf.disjoint _ (start_mem_vars g))

end Infer

end FormalLanguages.Grammar
