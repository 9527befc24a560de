import FormalLanguages.Grammar.Text
import FormalLanguages.Proofs.Grammar.WellFormed
import FormalLanguages.Proofs.Text

/-!
# Grammars read from a text

What the lines of a text say is put together to a well-formed grammar, whatever the terminals are.
The names in it can be written in a text again.
-/

namespace FormalLanguages.Grammar

open Std
open Text (contentLines cut fields isBlank lines split)

variable {T : ExtTreeSet String} {g : Grammar} {b r : Rule} {s u v : String}
  {line piece text : List Char} {p : Production} {ps : List Production}

/-! ### Adding productions -/

theorem addProduction_eq (g : Grammar) (p : Production) : addProduction g p =
    (g.addVariable p.head).addRules (p.rules.map fun r => (p.head, r)) := by
  rw [addRules, List.foldl_map]
  rfl

@[simp] theorem terminals_addProduction : (addProduction g p).terminals = g.terminals := by
  rw [addProduction_eq, terminals_addRules, terminals_addVariable]

@[simp] theorem start_addProduction : (addProduction g p).start = g.start := by
  rw [addProduction_eq, start_addRules, start_addVariable]

/-- The head of a production is a variable, and so are the symbols on the right that are not
terminals. -/
def Production.Names (p : Production) (T : ExtTreeSet String) (u : String) : Prop :=
  u = p.head ∨ ∃ r ∈ p.rules, u ∈ r.collapse ∧ u ≠ epsilonSymbol ∧ u ∉ T

theorem mem_vars_addProduction :
    u ∈ (addProduction g p).vars ↔ u ∈ g.vars ∨ p.Names g.terminals u := by
  rw [addProduction_eq, mem_vars_addRules, mem_vars_addVariable, terminals_addVariable]
  simp only [List.mem_map, Prod.mk.injEq, Production.Names]
  grind

def Production.Has (p : Production) (u : String) (b : Rule) : Prop :=
  p.head = u ∧ ∃ r ∈ p.rules, r.collapse = b

theorem mem_rules_addProduction :
    b ∈ (addProduction g p).rules u ↔ b ∈ g.rules u ∨ p.Has u b := by
  rw [addProduction_eq, mem_rules_addRules, rules, productions_addVariable]
  simp only [List.mem_map, Prod.mk.injEq, Production.Has, rules]
  grind

section Productions

@[simp] theorem terminals_foldl_addProduction :
    (ps.foldl addProduction g).terminals = g.terminals := by
  induction ps generalizing g <;> simp_all

@[simp] theorem start_foldl_addProduction : (ps.foldl addProduction g).start = g.start := by
  induction ps generalizing g <;> simp_all

theorem mem_vars_foldl_addProduction : u ∈ (ps.foldl addProduction g).vars ↔
    u ∈ g.vars ∨ ∃ p ∈ ps, p.Names g.terminals u := by
  induction ps generalizing g with
  | nil => simp
  | cons p ps ih =>
    simp only [List.foldl_cons, ih, mem_vars_addProduction, terminals_addProduction,
      List.exists_mem_cons_iff, or_assoc]

theorem mem_rules_foldl_addProduction : b ∈ (ps.foldl addProduction g).rules u ↔
    b ∈ g.rules u ∨ ∃ p ∈ ps, p.Has u b := by
  induction ps generalizing g with
  | nil => simp
  | cons p ps ih =>
    simp only [List.foldl_cons, ih, mem_rules_addProduction, List.exists_mem_cons_iff, or_assoc]

theorem WellFormed.foldl_addProduction (hg : g.WellFormed)
    (hps : ∀ p ∈ ps, p.head ∉ g.terminals ∧ p.head ≠ epsilonSymbol) :
    (ps.foldl addProduction g).WellFormed := by
  induction ps generalizing g with
  | nil => exact hg
  | cons p ps ih =>
    obtain ⟨hterm, hε⟩ := hps p (List.mem_cons_self ..)
    have hp : (addProduction g p).WellFormed := by
      rw [addProduction_eq]
      apply (hg.addVariable hterm hε).addRules
      intro rule hrule
      obtain ⟨r, -, rfl⟩ := List.mem_map.1 hrule
      rw [terminals_addVariable]
      exact ⟨hterm, hε⟩
    apply ih hp
    intro q hq
    rw [terminals_addProduction]
    exact hps q (List.mem_cons_of_mem p hq)

end Productions

/-! ### Reading lines -/

/-- A name that can stand before an arrow. -/
structure IsHead (s : String) : Prop where
  ne_nil : s.toList ≠ []
  not_blank : ∀ c ∈ s.toList, ¬ isBlank c
  not_epsilon : normalizeEpsilon s.toList ≠ [epsilon]
  not_arrow : ¬ arrow <:+: s.toList

/-- A name that can stand behind an arrow. -/
structure IsWord (s : String) : Prop where
  ne_nil : s.toList ≠ []
  not_blank : ∀ c ∈ s.toList, ¬ isBlank c
  not_bar : '|' ∉ s.toList
  normal : normalizeEpsilon s.toList = s.toList

theorem isWord_epsilon : IsWord epsilonSymbol := by
  have hlist : epsilonSymbol.toList = [epsilon] := by decide
  refine ⟨?_, ?_, ?_, ?_⟩ <;> rw [hlist]
  · decide
  · intro c hc
    rw [List.mem_singleton.1 hc]
    decide
  · decide
  · decide

theorem arrow_ne_nil : arrow ≠ [] := by decide

/-- What is before an arrow and what is behind it, and what is made of them. -/
structure Reads (T : ExtTreeSet String) (head body : List Char) (p : Production) : Prop where
  head_eq : p.head = .ofList (Text.trim head)
  ne_nil : Text.trim head ≠ []
  not_blank : ∀ c ∈ Text.trim head, ¬ isBlank c
  not_terminal : p.head ∉ T
  not_epsilon : normalizeEpsilon (Text.trim head) ≠ [epsilon]
  rules : Text.trim body = [] ∧ p.rules = [] ∨ Text.trim body ≠ [] ∧
    List.Forall₂ (fun fs r => fs ≠ [] ∧ fs.map readSymbol = r)
      ((split (· == '|') body).map fields) p.rules

theorem readRule?_eq_some_iff :
    readRule? piece = some r ↔ fields piece ≠ [] ∧ (fields piece).map readSymbol = r := by
  unfold readRule?
  cases fields piece <;> simp

theorem mapM_readRule?_eq_some_iff {pieces : List (List Char)} {rs : List Rule} :
    pieces.mapM readRule? = some rs ↔
      List.Forall₂ (fun fs r => fs ≠ [] ∧ fs.map readSymbol = r) (pieces.map fields) rs := by
  simp only [mapM_eq_some_iff, List.forall₂_map_left_iff, readRule?_eq_some_iff]

theorem readProduction?_eq_some_iff : readProduction? T line = some p ↔
    ∃ head body, cut arrow line = some (head, body) ∧ Reads T head body p := by
  unfold readProduction?
  cases cut arrow line with
  | none => simp
  | some sides =>
    obtain ⟨head, body⟩ := sides
    simp only [Option.bind_eq_bind, Option.bind_some, Option.some_inj, Prod.mk.injEq, existsAndEq,
      true_and]
    split
    · next h =>
      refine iff_of_false (by simp) fun hr => ?_
      have hterm := hr.head_eq ▸ hr.not_terminal
      obtain ⟨c, hc, hblank⟩ : ∃ c, c ∈ Text.trim head ∧ isBlank c := by
        simpa [hr.ne_nil, hterm, hr.not_epsilon] using h
      exact hr.not_blank c hc hblank
    · next h =>
      simp only [Bool.or_eq_true, decide_eq_true_eq, List.any_eq_true, not_or, not_exists,
        not_and] at h
      obtain ⟨⟨⟨hne, hblank⟩, hterm⟩, hε⟩ := h
      split
      · next hbody =>
        constructor
        · intro hp
          cases hp
          exact ⟨rfl, hne, hblank, hterm, hε, .inl ⟨hbody, rfl⟩⟩
        · intro hr
          obtain ⟨-, hrules⟩ := hr.rules.resolve_right fun h => h.1 hbody
          rw [← hr.head_eq, ← hrules]
      · next hbody =>
        constructor
        · intro hp
          obtain ⟨rules, hrules, hp⟩ := Option.bind_eq_some_iff.1 hp
          cases hp
          exact ⟨rfl, hne, hblank, hterm, hε, .inr ⟨hbody, mapM_readRule?_eq_some_iff.1 hrules⟩⟩
        · intro hr
          obtain ⟨-, hrules⟩ := hr.rules.resolve_left fun h => hbody h.1
          rw [mapM_readRule?_eq_some_iff.2 hrules, ← hr.head_eq]
          rfl

/-! ### Blanks around a line -/

section Blanks

variable {l m t head body : List Char} {c : Char} (hl : ∀ c ∈ l, isBlank c)
  (hm : ∀ c ∈ m, isBlank c)

theorem arrow_prefix_cons_iff : arrow <+: c :: t ↔ c = '-' ∧ t.head? = some '>' := by
  cases t <;> simp [arrow, List.cons_prefix_cons, eq_comm]

include hl in
theorem cut_arrow_append_left :
    cut arrow (l ++ t) = (cut arrow t).map fun (head, body) => (l ++ head, body) := by
  induction l with
  | nil => simp
  | cons c l ih =>
    have hc : isBlank c := hl c (List.mem_cons_self ..)
    have hprefix : ¬ arrow <+: c :: (l ++ t) := by
      rw [arrow_prefix_cons_iff]
      rintro ⟨rfl, -⟩
      exact absurd hc (by decide)
    rw [List.cons_append, cut, if_neg fun h => hprefix (List.isPrefixOf_iff_prefix.1 h),
      ih fun d hd => hl d (List.mem_cons_of_mem c hd), Option.map_map]
    rfl

include hm in
theorem cut_arrow_append_right :
    cut arrow (t ++ m) = (cut arrow t).map fun (head, body) => (head, body ++ m) := by
  induction t with
  | nil =>
    have h := cut_arrow_append_left (t := []) hm
    rw [List.append_nil] at h
    rw [List.nil_append, h]
    rfl
  | cons c t ih =>
    have hiff : arrow <+: c :: (t ++ m) ↔ arrow <+: c :: t := by
      rw [arrow_prefix_cons_iff, arrow_prefix_cons_iff]
      cases t with
      | cons d t => rfl
      | nil =>
        cases m with
        | nil => rfl
        | cons d m =>
          have hd : d ≠ '>' := fun e => absurd (hm d (List.mem_cons_self ..)) (by rw [e]; decide)
          simp [hd]
    by_cases hprefix : arrow <+: c :: t
    · obtain ⟨rest, hrest⟩ := hprefix
      rw [List.cons_append, cut, if_pos (List.isPrefixOf_iff_prefix.2 (hiff.2 ⟨rest, hrest⟩)), cut,
        if_pos (List.isPrefixOf_iff_prefix.2 ⟨rest, hrest⟩), ← List.cons_append, ← hrest,
        List.append_assoc, List.drop_left, List.drop_left]
      rfl
    · rw [List.cons_append, cut,
        if_neg fun h => hprefix (hiff.1 (List.isPrefixOf_iff_prefix.1 h)), cut,
        if_neg fun h => hprefix (List.isPrefixOf_iff_prefix.1 h), ih, Option.map_map,
        Option.map_map]
      rfl

include hl hm in
theorem reads_append_iff : Reads T (l ++ head) (body ++ m) p ↔ Reads T head body p := by
  have hbar : ∀ c ∈ m, ¬ (c == '|') := by
    intro c hc h
    rw [beq_iff_eq] at h
    exact absurd (hm c hc) (by rw [h]; decide)
  have hnil : Text.trim (body ++ m) = [] ↔ Text.trim body = [] := by
    simp only [Text.trim_eq_nil_iff, List.mem_append, or_imp, forall_and]
    exact and_iff_left hm
  constructor
  · rintro ⟨h₁, h₂, h₃, h₄, h₅, h₆⟩
    rw [Text.trim_append_left hl] at h₁ h₂ h₃ h₅
    rw [ne_eq, hnil, Text.map_fields_split_append hbar hm] at h₆
    exact ⟨h₁, h₂, h₃, h₄, h₅, h₆⟩
  · rintro ⟨h₁, h₂, h₃, h₄, h₅, h₆⟩
    rw [← Text.trim_append_left hl] at h₁ h₂ h₃ h₅
    rw [ne_eq, ← hnil, ← Text.map_fields_split_append hbar hm] at h₆
    exact ⟨h₁, h₂, h₃, h₄, h₅, h₆⟩

end Blanks

theorem readProduction?_trim (T : ExtTreeSet String) (line : List Char) :
    readProduction? T (Text.trim line) = readProduction? T line := by
  obtain ⟨l, m, hline, hl, hm⟩ := Text.exists_of_trim line
  generalize Text.trim line = t at hline
  subst hline
  ext p
  rw [readProduction?_eq_some_iff, readProduction?_eq_some_iff, List.append_assoc,
    cut_arrow_append_left hl, cut_arrow_append_right hm]
  cases cut arrow t with
  | none => simp
  | some sides =>
    obtain ⟨head, body⟩ := sides
    simp [reads_append_iff hl hm]

/-! ### Reading texts -/

theorem readProductions_eq_ok_iff : readProductions T text = .ok ps ↔
    List.Forall₂ (fun line p => readProduction? T line = some p)
      ((lines text).filter fun line => Text.trim line ≠ []) ps := by
  rw [readProductions, mapM_eq_ok_iff, contentLines, List.filter_map, List.forall₂_map_left_iff]
  apply iff_of_eq
  congr
  funext line p
  rw [readProduction?_trim]
  cases readProduction? T line <;> simp

theorem parse_eq_ok_iff : parse T text = .ok g ↔
    ∃ p ps, readProductions T text = .ok (p :: ps) ∧
      (p :: ps).foldl addProduction (empty T p.head) = g := by
  unfold parse
  cases readProductions T text with
  | error e => simp [bind, Except.bind]
  | ok ps =>
    cases ps with
    | nil => simp [bind, Except.bind]
    | cons p ps => simp [bind, Except.bind, pure, Except.pure]

/-- A grammar that was read consists of what the productions say, and of no more. -/
theorem exists_of_parse (h : parse T text = .ok g) : ∃ ps, readProductions T text = .ok ps ∧
    g.terminals = T ∧ (∀ u, u ∈ g.vars ↔ ∃ p ∈ ps, p.Names T u) ∧
      ∀ u b, b ∈ g.rules u ↔ ∃ p ∈ ps, p.Has u b := by
  obtain ⟨p, ps, hps, rfl⟩ := parse_eq_ok_iff.1 h
  refine ⟨p :: ps, hps, terminals_foldl_addProduction, fun u => ?_, fun u b => ?_⟩
  · rw [mem_vars_foldl_addProduction]
    apply or_iff_right_of_imp
    intro hu
    exact ⟨p, List.mem_cons_self .., .inl (List.mem_singleton.1 hu)⟩
  · rw [mem_rules_foldl_addProduction, rules_empty]
    exact or_iff_right ExtTreeSet.not_mem_empty

/-- What holds of the rules of a grammar whatever its terminals are: each belongs to a variable, is
written without needless `ε`, and has no symbols but terminals and variables. -/
structure Tidy (g : Grammar) : Prop where
  mem_vars_of_rule : ∀ {v r}, r ∈ g.rules v → v ∈ g.vars
  collapse_eq : ∀ {v r}, r ∈ g.rules v → r.collapse = r
  symbol_of_mem : ∀ {v r}, r ∈ g.rules v → ∀ {s}, s ∈ r → s = epsilonSymbol ∨ g.IsSymbol s

theorem Tidy.ne_nil (hg : g.Tidy) (hr : r ∈ g.rules v) : r ≠ [] :=
  hg.collapse_eq hr ▸ r.collapse_ne_nil

theorem WellFormed.tidy (hg : g.WellFormed) : g.Tidy :=
  ⟨hg.mem_vars_of_rule, hg.collapse_eq, hg.symbol_of_mem⟩

theorem tidy_parse (h : parse T text = .ok g) : g.Tidy := by
  obtain ⟨ps, -, hterm, hvars, hrules⟩ := exists_of_parse h
  constructor
  · intro v r hr
    obtain ⟨p, hp, rfl, -⟩ := (hrules v r).1 hr
    exact (hvars p.head).2 ⟨p, hp, .inl rfl⟩
  · intro v b hb
    obtain ⟨p, -, -, r, -, rfl⟩ := (hrules v b).1 hb
    exact r.collapse_collapse
  · intro v b hb s hs
    obtain ⟨p, hp, -, r, hr, rfl⟩ := (hrules v b).1 hb
    by_cases hε : s = epsilonSymbol
    · exact .inl hε
    by_cases hT : s ∈ T
    · exact .inr (.inl (hterm ▸ hT))
    · exact .inr (.inr ((hvars s).2 ⟨p, hp, .inr ⟨r, hr, hs, hε, hT⟩⟩))

/-! ### The names in a text -/

theorem Reads.isHead {head body : List Char} (h : Reads T head body p)
    (hcut : cut arrow line = some (head, body)) : IsHead p.head := by
  obtain ⟨-, hfirst⟩ := (Text.cut_eq_some_iff arrow_ne_nil).1 hcut
  have hlist : p.head.toList = Text.trim head := by rw [h.head_eq, String.toList_ofList]
  refine ⟨hlist ▸ h.ne_nil, hlist ▸ h.not_blank, hlist ▸ h.not_epsilon, fun harrow => hfirst ?_⟩
  rw [hlist] at harrow
  exact (harrow.trans (Text.trim_infix head)).trans (List.prefix_append _ _).isInfix

theorem isHead_of_mem (hps : readProductions T text = .ok ps) (hp : p ∈ ps) :
    IsHead p.head ∧ p.head ∉ T := by
  obtain ⟨line, -, hline⟩ := exists_left_of_forall₂ (readProductions_eq_ok_iff.1 hps) hp
  obtain ⟨head, body, hcut, hread⟩ := readProduction?_eq_some_iff.1 hline
  exact ⟨hread.isHead hcut, hread.not_terminal⟩

theorem IsHead.ne_epsilon (h : IsHead s) : s ≠ epsilonSymbol := by
  rintro rfl
  exact h.not_epsilon (by decide)

theorem wellFormed_parse (hT : epsilonSymbol ∉ T) (h : parse T text = .ok g) : g.WellFormed := by
  obtain ⟨p, ps, hps, rfl⟩ := parse_eq_ok_iff.1 h
  obtain ⟨hhead, hterm⟩ := isHead_of_mem hps (List.mem_cons_self ..)
  apply (wellFormed_empty hT hterm hhead.ne_epsilon).foldl_addProduction
  intro q hq
  obtain ⟨hhead, hterm⟩ := isHead_of_mem hps hq
  exact ⟨hterm, hhead.ne_epsilon⟩

/-! ### Symbols -/

theorem normalizeEpsilon_normalizeEpsilon (s : List Char) :
    normalizeEpsilon (normalizeEpsilon s) = normalizeEpsilon s := by
  match s with
  | [] => rfl
  | [c] =>
    by_cases hc : isEpsilonGlyph c
    · simp only [normalizeEpsilon, hc, if_true]
      decide
    · simp [normalizeEpsilon, hc]
  | _ :: _ :: _ => rfl

theorem isWord_readSymbol {f : List Char} (hbar : '|' ∉ piece) (hf : f ∈ fields piece) :
    IsWord (readSymbol f) := by
  obtain ⟨hne, hchar⟩ := Text.mem_fields hf
  have hnormal := normalizeEpsilon_normalizeEpsilon f
  -- either the symbol is the empty word, or it is the field itself
  have hcases : normalizeEpsilon f = [epsilon] ∨ normalizeEpsilon f = f := by
    match f with
    | [] => exact .inr rfl
    | [c] =>
      simp only [normalizeEpsilon]
      split <;> simp
    | _ :: _ :: _ => exact .inr rfl
  rcases hcases with h | h
  · rw [readSymbol, h]
    exact isWord_epsilon
  constructor <;> rw [readSymbol, String.toList_ofList, h]
  · exact hne
  · exact fun c hc => (hchar c hc).2
  · exact fun hmem => hbar (hchar _ hmem).1
  · exact h

def OnLeft (text : List Char) (s : String) : Prop :=
  ∃ line ∈ lines text, ∃ head body, cut arrow line = some (head, body) ∧
    .ofList (Text.trim head) = s

def OnRight (text : List Char) (s : String) : Prop :=
  ∃ line ∈ lines text, ∃ head body, cut arrow line = some (head, body) ∧
    ∃ fs ∈ (split (· == '|') body).map fields, s ∈ fs.map readSymbol

theorem trim_ne_nil_of_cut {head body : List Char} (hcut : cut arrow line = some (head, body)) :
    Text.trim line ≠ [] := by
  intro h
  obtain ⟨hsides, -⟩ := (Text.cut_eq_some_iff arrow_ne_nil).1 hcut
  have hmem : '-' ∈ line := by simp [hsides, arrow]
  exact absurd (Text.trim_eq_nil_iff.1 h '-' hmem) (by decide)

section Sides

variable (hps : readProductions T text = .ok ps)
include hps

/-- A line with an arrow is one of the productions. -/
theorem exists_reads (hline : line ∈ lines text) {head body : List Char}
    (hcut : cut arrow line = some (head, body)) : ∃ p ∈ ps, Reads T head body p := by
  have hfilter : line ∈ (lines text).filter fun line => Text.trim line ≠ [] :=
    List.mem_filter.2 ⟨hline, decide_eq_true (trim_ne_nil_of_cut hcut)⟩
  obtain ⟨p, hp, hread⟩ := exists_right_of_forall₂ (readProductions_eq_ok_iff.1 hps) hfilter
  obtain ⟨head', body', hcut', hread⟩ := readProduction?_eq_some_iff.1 hread
  rw [hcut] at hcut'
  cases hcut'
  exact ⟨p, hp, hread⟩

theorem exists_line (hp : p ∈ ps) :
    ∃ line ∈ lines text, ∃ head body, cut arrow line = some (head, body) ∧ Reads T head body p := by
  obtain ⟨line, hline, hread⟩ := exists_left_of_forall₂ (readProductions_eq_ok_iff.1 hps) hp
  exact ⟨line, (List.mem_filter.1 hline).1, readProduction?_eq_some_iff.1 hread⟩

theorem onLeft_iff : OnLeft text s ↔ ∃ p ∈ ps, p.head = s := by
  constructor
  · rintro ⟨line, hline, head, body, hcut, rfl⟩
    obtain ⟨p, hp, hread⟩ := exists_reads hps hline hcut
    exact ⟨p, hp, hread.head_eq⟩
  · rintro ⟨p, hp, rfl⟩
    obtain ⟨line, hline, head, body, hcut, hread⟩ := exists_line hps hp
    exact ⟨line, hline, head, body, hcut, hread.head_eq.symm⟩

theorem onRight_iff : OnRight text s ↔ ∃ p ∈ ps, ∃ r ∈ p.rules, s ∈ r := by
  constructor
  · rintro ⟨line, hline, head, body, hcut, fs, hfs, hs⟩
    obtain ⟨p, hp, hread⟩ := exists_reads hps hline hcut
    refine ⟨p, hp, ?_⟩
    rcases hread.rules with ⟨hblank, -⟩ | ⟨-, hrules⟩
    · obtain ⟨piece, hpiece, rfl⟩ := List.mem_map.1 hfs
      rw [Text.fields_eq_nil fun c hc =>
        Text.trim_eq_nil_iff.1 hblank c (Text.mem_of_mem_split hpiece hc).1] at hs
      cases hs
    · obtain ⟨r, hr, -, rfl⟩ := exists_right_of_forall₂ hrules hfs
      exact ⟨_, hr, hs⟩
  · rintro ⟨p, hp, r, hr, hs⟩
    obtain ⟨line, hline, head, body, hcut, hread⟩ := exists_line hps hp
    refine ⟨line, hline, head, body, hcut, ?_⟩
    rcases hread.rules with ⟨-, hnil⟩ | ⟨-, hrules⟩
    · rw [hnil] at hr
      cases hr
    · obtain ⟨fs, hfs, -, rfl⟩ := exists_left_of_forall₂ hrules hr
      exact ⟨fs, hfs, hs⟩

end Sides

theorem OnRight.isWord (h : OnRight text s) : IsWord s := by
  obtain ⟨line, -, head, body, -, fs, hfs, hs⟩ := h
  obtain ⟨piece, hpiece, rfl⟩ := List.mem_map.1 hfs
  obtain ⟨f, hf, rfl⟩ := List.mem_map.1 hs
  exact isWord_readSymbol (fun h => (Text.mem_of_mem_split hpiece h).2 (by simp)) hf

theorem mem_inferredTerminals :
    s ∈ inferredTerminals text ↔ s ≠ epsilonSymbol ∧ OnRight text s ∧ ¬ OnLeft text s := by
  have hbody (body : List Char) : (split (fun c => c == '|' || isBlank c) body).filter (· ≠ []) =
      ((split (· == '|') body).map fields).flatten := by
    rw [← Text.flatMap_split, List.filter_flatMap]
    rfl
  simp only [inferredTerminals, hbody, ExtTreeSet.mem_ofList, List.contains_iff_mem,
    List.mem_filter, List.mem_flatMap, List.mem_map, List.mem_filterMap, List.mem_flatten,
    OnRight, OnLeft, Prod.exists]
  grind

theorem epsilon_not_inferred (text : List Char) : epsilonSymbol ∉ inferredTerminals text :=
  fun h => (mem_inferredTerminals.1 h).1 rfl

/-- The symbols of the rules of a grammar that was read stand behind arrows. -/
theorem isWord_of_parse (h : parse T text = .ok g) (hb : b ∈ g.rules v) (hs : s ∈ b) :
    IsWord s := by
  obtain ⟨ps, hps, -, -, hrules⟩ := exists_of_parse h
  obtain ⟨p, hp, -, r, hr, rfl⟩ := (hrules v b).1 hb
  rcases Rule.mem_collapse hs with ⟨hs, -⟩ | hε
  · exact ((onRight_iff hps).2 ⟨p, hp, r, hr, hs⟩).isWord
  · rw [hε] at hs
    rw [List.mem_singleton.1 hs]
    exact isWord_epsilon

/-- When the terminals are inferred, all variables stand before arrows. -/
theorem isHead_of_parseInferring (h : parseInferring text = .ok g) (hv : v ∈ g.vars) :
    IsHead v := by
  obtain ⟨ps, hps, -, hvars, -⟩ := exists_of_parse h
  obtain ⟨p, hp, rfl⟩ : ∃ p ∈ ps, p.head = v := by
    obtain ⟨p, hp, rfl | ⟨r, hr, hv, hε, hT⟩⟩ := (hvars v).1 hv
    · exact ⟨p, hp, rfl⟩
    · have hmem := (Rule.mem_collapse hv).elim And.left fun h => by
        rw [h] at hv
        exact absurd (List.mem_singleton.1 hv) hε
      have hright := (onRight_iff hps).2 ⟨p, hp, r, hr, hmem⟩
      rw [mem_inferredTerminals, not_and, not_and, not_not] at hT
      exact (onLeft_iff hps).1 (hT hε hright)
  exact (isHead_of_mem hps hp).1

end FormalLanguages.Grammar
