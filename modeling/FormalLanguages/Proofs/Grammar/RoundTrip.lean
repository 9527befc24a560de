import FormalLanguages.Proofs.Grammar.Printing
import FormalLanguages.Proofs.Sets

/-!
# Grammars read, written and read again

A grammar that was read is read again from its text, over the same terminals, if none of its
variables has an arrow in its name. Such a variable can stand behind an arrow only, and the line
written for it says something else.
-/

namespace FormalLanguages.Grammar

open Std

variable {T : ExtTreeSet String} {g h : Grammar} {s v : String} {text : List Char}

/-! ### Productions without rules -/

def Ruled (g : Grammar) : Prop := ∀ v ∈ g.productions, ∃ r, r ∈ g.rules v

theorem ruled_empty : (empty T s).Ruled := fun _ hv => absurd hv ExtTreeMap.not_mem_empty

theorem Ruled.addRule (hg : g.Ruled) (v : String) (r : Rule) : (g.addRule v r).Ruled := by
  intro u hu
  simp only [Grammar.addRule, productions_foldl_addVariable, ExtTreeMap.mem_insert,
    LawfulEqCmp.compare_eq_iff_eq] at hu
  rcases hu with rfl | hu
  · exact ⟨_, mem_rules_addRule.2 (.inl ⟨rfl, rfl⟩)⟩
  · obtain ⟨b, hb⟩ := hg u hu
    exact ⟨b, mem_rules_addRule.2 (.inr hb)⟩

theorem Ruled.addVariable (hg : g.Ruled) (v : String) : (g.addVariable v).Ruled := by
  simpa only [Ruled, rules, productions_addVariable] using hg

theorem Ruled.addProduction (hg : g.Ruled) (p : Production) : (addProduction g p).Ruled :=
  List.foldlRecOn p.rules _ (hg.addVariable p.head) fun _ hg r _ => hg.addRule p.head r

theorem ruled_parse (h : parse T text = .ok g) : g.Ruled := by
  obtain ⟨p, ps, -, rfl⟩ := parse_eq_ok_iff.1 h
  exact List.foldlRecOn (p :: ps) _ ruled_empty fun _ hg q _ => hg.addProduction q

/-- Then the rules say all that there is in the productions. -/
theorem Ruled.productions_eq (hg : g.Ruled) (hh : h.Ruled) (heq : ∀ v, g.rules v = h.rules v) :
    g.productions = h.productions := by
  have hmem : ∀ v, v ∈ g.productions ↔ v ∈ h.productions := by
    intro v
    constructor
    · intro hv
      obtain ⟨r, hr⟩ := hg v hv
      exact mem_productions_of_rule (heq v ▸ hr)
    · intro hv
      obtain ⟨r, hr⟩ := hh v hv
      exact mem_productions_of_rule (heq v ▸ hr)
  exact map_eq_of_getD_eq hmem heq

theorem same_of_eq (hterminals : g.terminals = h.terminals) (hstart : g.start = h.start)
    (hproductions : g.productions = h.productions) (hvars : ∀ v, v ∈ g.vars ↔ v ∈ h.vars) :
    g.same h = true := by
  have hset : (ExtTreeSet.ofList g.vars : ExtTreeSet String) = .ofList h.vars := by
    apply ExtTreeSet.ext_mem
    intro v
    simpa only [ExtTreeSet.mem_ofList, List.contains_iff_mem] using hvars v
  simp [same, hterminals, hstart, hproductions, hset]

/-! ### The names of a grammar that was read -/

theorem IsWord.isHead (hs : IsWord s) (hε : s ≠ epsilonSymbol) (harrow : ¬ arrow <:+: s.toList) :
    IsHead s := by
  refine ⟨hs.ne_nil, hs.not_blank, fun h => hε ?_, harrow⟩
  rw [hs.normal] at h
  exact String.toList_inj.1 h

/-- A variable stands before an arrow or behind one, and is no terminal. -/
theorem name_of_parse (h : parse T text = .ok g) (hv : v ∈ g.vars) :
    v ∉ T ∧ (IsHead v ∨ IsWord v ∧ v ≠ epsilonSymbol) := by
  obtain ⟨ps, hps, -, hvars, hrules⟩ := exists_of_parse h
  obtain ⟨p, hp, rfl | ⟨r, hr, hvr, hε, hT⟩⟩ := (hvars v).1 hv
  · obtain ⟨hhead, hT⟩ := isHead_of_mem hps hp
    exact ⟨hT, .inl hhead⟩
  · have hrule : r.collapse ∈ g.rules p.head := (hrules p.head _).2 ⟨p, hp, rfl, r, hr, rfl⟩
    exact ⟨hT, .inr ⟨isWord_of_parse h hrule hvr, hε⟩⟩

theorem writable_parse (h : parse T text = .ok g)
    (harrow : ∀ v ∈ g.vars, ¬ arrow <:+: v.toList) : g.Writable where
  isHead v hv := (name_of_parse h hv).2.elim id fun hword =>
    hword.1.isHead hword.2 (harrow v hv)
  isWord _ _ hr _ hs := isWord_of_parse h hr hs

/-- The text of a grammar that was read is read as the same grammar again. -/
theorem parse_print_parse (hread : parse T text = .ok g)
    (harrow : ∀ v ∈ g.vars, ¬ arrow <:+: v.toList) :
    ∃ h, parse T g.print = .ok h ∧ h.terminals = g.terminals ∧ h.start = g.start ∧
      (∀ v, v ∈ h.vars ↔ v ∈ g.vars) ∧ h.productions = g.productions ∧ g.same h = true := by
  obtain ⟨-, -, hterm, -⟩ := exists_of_parse hread
  obtain ⟨h, hagain, hstart, hT, hvars, hrules⟩ := parse_print (T := T) (tidy_parse hread)
    (writable_parse hread harrow) (fun v hv => (name_of_parse hread hv).1)
    (fun v r hr s hs ht => hterm ▸ ht)
  have hterminals : h.terminals = g.terminals := hT.trans hterm.symm
  have hproductions := (ruled_parse hagain).productions_eq (ruled_parse hread) hrules
  refine ⟨h, hagain, hterminals, hstart, hvars, hproductions, ?_⟩
  exact same_of_eq hterminals.symm hstart.symm hproductions.symm fun v => (hvars v).symm

/-- In this text a head has a bar in it, a variable has no rules, and the empty word is a terminal
as well. -/
theorem parse_print_barred : ∃ g h,
    parse {"a", "ε"} "A|B -> a X ~ | ~ ε\nX ->\nA|B -> Y Y".toList = .ok g ∧
    (∀ v ∈ g.vars, ¬ arrow <:+: v.toList) ∧ parse {"a", "ε"} g.print = .ok h ∧
    g.same h = true := by
  have hvars : (parse {"a", "ε"} "A|B -> a X ~ | ~ ε\nX ->\nA|B -> Y Y".toList).map vars =
      .ok ["A|B", "X", "Y"] := by decide +kernel
  obtain ⟨g, hread, hnames⟩ := exists_of_map_eq_ok hvars
  have harrow : ∀ v ∈ g.vars, ¬ arrow <:+: v.toList := by
    rw [hnames]
    decide
  obtain ⟨h, hagain, -, -, -, -, hsame⟩ := parse_print_parse hread harrow
  exact ⟨g, h, hread, harrow, hagain, hsame⟩

end FormalLanguages.Grammar
