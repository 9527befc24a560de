import FormalLanguages.Proofs.Chart.Columns
import FormalLanguages.Proofs.Grammar.Analysis

/-!
# Reading decides membership

An item says that the symbols before its dot yield the tokens from its origin on. Conversely, the
dot of an item moves over symbols when tokens come that these symbols yield, by induction on what
is yielded. A variable that yields no tokens here is nullable, and the dot moves at once. A rule
for any other has begun in an earlier column, where all that waits for it is known.
-/

namespace FormalLanguages

open Std

namespace Chart

variable {g : Grammar} {b r : Rule} {i : Item} {s t v : String} {u w x : List String} {k n : Nat}

/-! ### The chart of a grammar -/

section OfGrammar

theorem getD_ofList_map {l : List String} (hl : l.Nodup) (f : String → List Nat) (v : String) :
    (ExtTreeMap.ofList (l.map fun v => (v, f v))).getD v [] = if v ∈ l then f v else [] := by
  split
  · next hv =>
    apply ExtTreeMap.getD_ofList_of_mem (k := v) (LawfulEqCmp.compare_eq_iff_eq.2 rfl)
    · apply List.pairwise_map.2
      exact hl.imp fun hne heq => hne (LawfulEqCmp.compare_eq_iff_eq.1 heq)
    · exact List.mem_map.2 ⟨v, hv, rfl⟩
  · next hv =>
    apply ExtTreeMap.getD_ofList_of_contains_eq_false
    simpa using hv

theorem mem_rules_ofGrammar {α : List Part} :
    (v, α) ∈ (ofGrammar g).rules ↔ v ∈ (ofGrammar g).grammar.vars ∧
      ∃ r ∈ (ofGrammar g).grammar.rules v, parts (ofGrammar g).grammar r = α := by
  rw [ofGrammar, List.mem_toArray, List.mem_flatMap]
  simp only [List.mem_map, ExtTreeSet.mem_toList, Prod.mk.injEq]
  constructor
  · rintro ⟨v', hv', r, hr, rfl, hα⟩
    exact ⟨hv', r, hr, hα⟩
  · rintro ⟨hv, r, hr, hα⟩
    exact ⟨v, hv, r, hr, rfl, hα⟩

theorem exists_rule_of_getElem? {α : List Part} (h : (ofGrammar g).rules[k]? = some (v, α)) :
    ∃ r ∈ (ofGrammar g).grammar.rules v, parts (ofGrammar g).grammar r = α :=
  (mem_rules_ofGrammar.1 (Array.mem_of_getElem? h)).2

variable (hg : g.WellFormed)
include hg

theorem wellFormed_ofGrammar : (ofGrammar g).grammar.WellFormed :=
  hg.augmentStart (by decide)

theorem getElem?_of_rule (hr : r ∈ (ofGrammar g).grammar.rules v) :
    ∃ k : Nat, (ofGrammar g).rules[k]? = some (v, parts (ofGrammar g).grammar r) := by
  have hv := (wellFormed_ofGrammar hg).mem_vars_of_rule hr
  exact Array.getElem?_of_mem (mem_rules_ofGrammar.2 ⟨hv, r, hr, rfl⟩)

/-- The new start has one rule, and it comes first. -/
theorem toList_rules_ofGrammar : (ofGrammar g).rules.toList =
    ((ofGrammar g).grammar.start, parts (ofGrammar g).grammar [g.start]) ::
      (ofGrammar g).grammar.others.flatMap fun v =>
        ((ofGrammar g).grammar.rules v).toList.map fun r => (v, parts (ofGrammar g).grammar r) := by
  have hvar := (Grammar.unusedName_not_taken g "S`").1
  have htoList : ((ofGrammar g).grammar.rules (ofGrammar g).grammar.start).toList =
      [[g.start]] := by
    apply toList_eq_singleton
    intro b
    apply hg.mem_rules_augmentStart.trans
    constructor
    · rintro (⟨-, rfl⟩ | hb)
      · rfl
      · exact absurd (hg.mem_vars_of_rule hb) hvar
    · rintro rfl
      exact .inl ⟨rfl, rfl⟩
  show (List.toArray _).toList = _
  rw [Grammar.vars, List.flatMap_cons]
  have h := congrArg (List.map fun r => ((ofGrammar g).grammar.start,
    parts (ofGrammar g).grammar r)) htoList
  exact congrArg (· ++ _) h

/-- Rule number zero leads from the new start to the old one. -/
theorem getElem?_zero_ofGrammar : (ofGrammar g).rules[0]? =
    some ((ofGrammar g).grammar.start, parts (ofGrammar g).grammar [g.start]) := by
  rw [← Array.getElem?_toList, toList_rules_ofGrammar hg]
  rfl

/-- The new start has no other rule. -/
theorem eq_zero_of_start {α : List Part}
    (h : (ofGrammar g).rules[k]? = some ((ofGrammar g).grammar.start, α)) : k = 0 := by
  rw [← Array.getElem?_toList, toList_rules_ofGrammar hg] at h
  cases k with
  | zero => rfl
  | succ k =>
    obtain ⟨v, hv, hrule⟩ := List.mem_flatMap.1 (List.mem_of_getElem? h)
    obtain ⟨r, -, hr⟩ := List.mem_map.1 hrule
    have hstart : v = (ofGrammar g).grammar.start := congrArg Prod.fst hr
    exact absurd (hstart ▸ hv) (List.nodup_cons.1 (wellFormed_ofGrammar hg).nodup).1

theorem rulesOf_ofGrammar (v : String) : (ofGrammar g).rulesOf.getD v [] =
    ((ofGrammar g).rules.toList.zipIdx.filter fun ((u, _), _) => u == v).map (·.2) := by
  apply (getD_ofList_map (wellFormed_ofGrammar hg).nodup _ v).trans
  split
  · rfl
  · next hv =>
    symm
    apply List.map_eq_nil_iff.2
    apply List.filter_eq_nil_iff.2
    rintro ⟨⟨u, α⟩, k⟩ hmem heq
    have hrule := Array.mem_of_getElem?
      ((Array.getElem?_toList ..).symm.trans (List.mem_zipIdx_iff_getElem?.1 hmem))
    exact hv (beq_iff_eq.1 heq ▸ (mem_rules_ofGrammar.1 hrule).1)

theorem indexed_ofGrammar : (ofGrammar g).Indexed := by
  refine ⟨⟨_, _, getElem?_zero_ofGrammar hg⟩, fun v k => ?_⟩
  rw [rulesOf_ofGrammar hg]
  simp only [List.mem_map, List.mem_filter, List.mem_zipIdx_iff_getElem?, Prod.exists, beq_iff_eq,
    Array.getElem?_toList]
  constructor
  · rintro ⟨_, α, k, ⟨hk, rfl⟩, rfl⟩
    exact ⟨α, hk⟩
  · rintro ⟨α, hk⟩
    exact ⟨v, α, k, ⟨hk, rfl⟩, rfl⟩

end OfGrammar

/-! ### The symbols of an item -/

section Symbols

variable {g : Grammar}

theorem name_part (s : String) : (part g s).name = s := by
  unfold part
  split <;> rfl

theorem map_name_parts (r : Rule) :
    (parts g r).map Part.name = r.filter (· ≠ epsilonSymbol) := by
  rw [parts, List.map_map]
  exact List.map_id'' name_part _

theorem part_eq_terminal_iff : part g s = .terminal t ↔ s = t ∧ t ∈ g.terminals := by
  unfold part
  split
  · next h =>
    rw [Grammar.isTerminal_iff] at h
    simp only [Part.terminal.injEq]
    exact ⟨fun e => ⟨e, e ▸ h⟩, And.left⟩
  · next h =>
    rw [Grammar.isTerminal_iff] at h
    simp only [reduceCtorEq, false_iff]
    exact fun ⟨e, ht⟩ => h (e ▸ ht)

theorem part_eq_variable_iff : part g s = .variable v ↔ s = v ∧ v ∉ g.terminals := by
  unfold part
  split
  · next h =>
    rw [Grammar.isTerminal_iff] at h
    simp only [reduceCtorEq, false_iff]
    exact fun ⟨e, hv⟩ => hv (e ▸ h)
  · next h =>
    rw [Grammar.isTerminal_iff] at h
    simp only [Part.variable.injEq]
    exact ⟨fun e => ⟨e, e ▸ h⟩, And.left⟩

end Symbols

/-! ### What an item says -/

/-- The symbols before the dot yield the tokens from the origin on. -/
def Reads (g : Grammar) (u : List String) (i : Item) : Prop :=
  ∃ v r, r ∈ (ofGrammar g).grammar.rules v ∧
    (ofGrammar g).rules[i.rule]? = some (v, parts (ofGrammar g).grammar r) ∧
    i.origin ≤ u.length ∧
    (ofGrammar g).grammar.Yields ((r.filter (· ≠ epsilonSymbol)).take i.dot) (u.drop i.origin)

theorem next?_eq_some_iff_of_rule {p : Part}
    (hrule : (ofGrammar g).rules[i.rule]? = some (v, parts (ofGrammar g).grammar r)) :
    (ofGrammar g).next? i = some p ↔
      ∃ s, (r.filter (· ≠ epsilonSymbol))[i.dot]? = some s ∧ part (ofGrammar g).grammar s = p := by
  rw [next?, hrule]
  show (parts (ofGrammar g).grammar r)[i.dot]? = some p ↔ _
  rw [parts, List.getElem?_map, Option.map_eq_some_iff]

/-- The dot moves over a symbol that yields the tokens that came since. -/
theorem Reads.advance {p : Part} (h : Reads g u i) (hnext : (ofGrammar g).next? i = some p)
    (hx : (ofGrammar g).grammar.Yields [p.name] x) : Reads g (u ++ x) i.advance := by
  obtain ⟨v, r, hr, hrule, horigin, hyields⟩ := h
  obtain ⟨s, hs, rfl⟩ := (next?_eq_some_iff_of_rule hrule).1 hnext
  rw [name_part] at hx
  refine ⟨v, r, hr, hrule, ?_, ?_⟩
  · rw [List.length_append]
    exact Nat.le_add_right_of_le horigin
  · rw [Item.advance, List.take_add_one, hs, List.drop_append_of_le_length horigin]
    exact hyields.append hx

theorem Reads.yields_of_complete (hg : g.WellFormed) (h : Reads g u i)
    (hnone : (ofGrammar g).next? i = none) (hv : (ofGrammar g).head? i = some v) :
    (ofGrammar g).grammar.Yields [v] (u.drop i.origin) := by
  obtain ⟨v', r, hr, hrule, horigin, hyields⟩ := h
  rw [head?, hrule] at hv
  cases hv
  have hlast : (r.filter (· ≠ epsilonSymbol))[i.dot]? = none := by
    apply Option.eq_none_iff_forall_ne_some.2
    intro s hs
    rw [(next?_eq_some_iff_of_rule hrule).2 ⟨s, hs, rfl⟩] at hnone
    cases hnone
  rw [List.take_of_length_le (List.getElem?_eq_none_iff.1 hlast),
    (wellFormed_ofGrammar hg).yields_filter_iff] at hyields
  exact .of_rule hr hyields

theorem start_rule (hg : g.WellFormed) :
    [g.start] ∈ (ofGrammar g).grammar.rules (ofGrammar g).grammar.start :=
  hg.mem_rules_augmentStart.2 (.inl ⟨rfl, rfl⟩)

theorem reads_startItem (hg : g.WellFormed) : Reads g [] startItem := by
  refine ⟨_, _, start_rule hg, getElem?_zero_ofGrammar hg, Nat.le_refl _, ?_⟩
  rw [startItem, List.take_zero, List.drop_nil]
  exact .nil

theorem Reads.scan (hi : Reads g u i) (ht : (ofGrammar g).next? i = some (.terminal t)) :
    Reads g (u ++ [t]) i.advance := by
  obtain ⟨v, r, hr, hrule, -⟩ := id hi
  obtain ⟨s, -, hs⟩ := (next?_eq_some_iff_of_rule hrule).1 ht
  exact hi.advance ht (.terminal (part_eq_terminal_iff.1 hs).2 .nil)

theorem reads_predict (hg : g.WellFormed) (hk : k ∈ (ofGrammar g).rulesOf.getD v []) :
    Reads g u ⟨k, 0, u.length⟩ := by
  obtain ⟨α, hrule⟩ := ((indexed_ofGrammar hg).mem_rulesOf v k).1 hk
  obtain ⟨r, hr, rfl⟩ := exists_rule_of_getElem? hrule
  refine ⟨v, r, hr, hrule, Nat.le_refl _, ?_⟩
  rw [List.take_zero, List.drop_length]
  exact .nil

theorem Reads.skip (hi : Reads g u i) (hv : (ofGrammar g).next? i = some (.variable v))
    (hnull : v ∈ (ofGrammar g).nullable) : Reads g u i.advance := by
  have h := hi.advance hv (x := []) (Grammar.yields_empty_of_nullable hnull)
  rwa [List.append_nil] at h

theorem Reads.complete (hg : g.WellFormed) {j : Item} (hi : Reads g u i)
    (hnone : (ofGrammar g).next? i = none) (hv : (ofGrammar g).head? i = some v)
    (hj : Reads g (u.take i.origin) j) (hnext : (ofGrammar g).next? j = some (.variable v)) :
    Reads g u j.advance := by
  have h := hj.advance hnext (hi.yields_of_complete hg hnone hv)
  rwa [List.take_append_drop] at h

theorem reads_of_mem_column (hg : g.WellFormed) : ∀ i ∈ (ofGrammar g).column u, Reads g u i := by
  apply column_induction
  · exact reads_startItem hg
  · exact fun u t i hi ht => hi.scan ht
  · exact fun u i v _ _ k hk => reads_predict hg hk
  · exact fun u i v hi hv hnull => hi.skip hv hnull
  · exact fun u i v j hi hnone hv hj hnext => hi.complete hg hnone hv hj hnext

/-! ### What is read -/

def moved (i : Item) (n : Nat) : Item := { i with dot := i.dot + n }

theorem moved_succ (i : Item) (n : Nat) : moved i (n + 1) = moved i.advance n := by
  simp only [moved, Item.advance, Item.mk.injEq, true_and, and_true]
  omega

theorem next?_of_drop {tail : Rule}
    (hrule : (ofGrammar g).rules[i.rule]? = some (v, parts (ofGrammar g).grammar r))
    (hdot : (r.filter (· ≠ epsilonSymbol)).drop i.dot = s :: tail) :
    (ofGrammar g).next? i = some (part (ofGrammar g).grammar s) ∧
      (r.filter (· ≠ epsilonSymbol)).drop i.advance.dot = tail := by
  have hhead : (r.filter (· ≠ epsilonSymbol))[i.dot]? = some s := by
    rw [← List.head?_drop, hdot, List.head?_cons]
  constructor
  · exact (next?_eq_some_iff_of_rule hrule).2 ⟨s, hhead, rfl⟩
  · rw [Item.advance, ← List.tail_drop, hdot, List.tail_cons]

/-- The dot moves over a variable when a rule of it has been read. -/
theorem advance_mem_of_complete (hg : g.WellFormed) (hi : i ∈ (ofGrammar g).column u)
    (hnext : (ofGrammar g).next? i = some (.variable v)) {j : Item}
    (hj : j ∈ (ofGrammar g).column (u ++ x))
    (hrule : (ofGrammar g).rules[j.rule]? = some (v, parts (ofGrammar g).grammar r))
    (hdot : j.dot = (r.filter (· ≠ epsilonSymbol)).length) (horigin : j.origin = u.length)
    (hx : x ≠ []) : i.advance ∈ (ofGrammar g).column (u ++ x) := by
  apply (indexed_ofGrammar hg).complete_mem hj (v := v) _ _ _ _ hnext
  · apply Option.eq_none_iff_forall_ne_some.2
    intro p hp
    obtain ⟨s, hs, -⟩ := (next?_eq_some_iff_of_rule hrule).1 hp
    rw [hdot, List.getElem?_length] at hs
    cases hs
  · rw [head?, hrule]
    rfl
  · have hpos := List.length_pos_iff.2 hx
    rw [List.length_append]
    omega
  · rw [horigin, List.take_left]
    exact hi

/-- The dot moves over symbols when tokens come that they yield. -/
theorem moved_mem_column (hg : g.WellFormed) {rest : Rule} (hx : (ofGrammar g).grammar.Yields r x)
    (hi : i ∈ (ofGrammar g).column u)
    (hrule : (ofGrammar g).rules[i.rule]? = some (v, parts (ofGrammar g).grammar b))
    (hdot : (b.filter (· ≠ epsilonSymbol)).drop i.dot = r.filter (· ≠ epsilonSymbol) ++ rest) :
    moved i (r.filter (· ≠ epsilonSymbol)).length ∈ (ofGrammar g).column (u ++ x) := by
  have hG := wellFormed_ofGrammar hg
  have hc := indexed_ofGrammar hg
  induction hx generalizing u i v b rest with
  | nil => rwa [List.append_nil]
  | epsilon _ ih =>
    apply ih hi hrule
    rwa [List.filter_cons_of_neg (by simp)] at hdot
  | @terminal t r w ht _ ih =>
    have hne : t ≠ epsilonSymbol := fun e => hG.epsilon_not_terminal (e ▸ ht)
    have hcons : (t :: r).filter (· ≠ epsilonSymbol) = t :: r.filter (· ≠ epsilonSymbol) :=
      List.filter_cons_of_pos (by simpa using hne)
    rw [hcons, List.cons_append] at hdot
    obtain ⟨hnext, hdrop⟩ := next?_of_drop hrule hdot
    rw [part_eq_terminal_iff.2 ⟨rfl, ht⟩] at hnext
    have hmoved := ih (advance_mem_column hi hnext) hrule hdrop
    rw [hcons, List.length_cons, moved_succ]
    rwa [List.append_assoc] at hmoved
  | @rule v' b' r y w hb hy _ ihb ihr =>
    have hv := hG.mem_vars_of_rule hb
    have hne := hG.ne_epsilon hv
    have hcons : (v' :: r).filter (· ≠ epsilonSymbol) = v' :: r.filter (· ≠ epsilonSymbol) :=
      List.filter_cons_of_pos (by simpa using hne)
    rw [hcons, List.cons_append] at hdot
    obtain ⟨hnext, hdrop⟩ := next?_of_drop hrule hdot
    rw [part_eq_variable_iff.2 ⟨rfl, hG.disjoint v' hv⟩] at hnext
    rw [hcons, List.length_cons, moved_succ, ← List.append_assoc]
    refine ihr ?_ hrule hdrop
    by_cases hempty : y = []
    · rw [hempty] at hy ⊢
      have hnull := (Grammar.mem_nullable_iff hne).2 (.of_rule hb hy)
      rw [List.append_nil]
      exact hc.skip_mem hi hnext hnull
    · obtain ⟨k, hk⟩ := getElem?_of_rule hg hb
      have hpredicted := hc.predict_mem hi hnext ((hc.mem_rulesOf v' k).2 ⟨_, hk⟩)
      have hread := ihb hpredicted hk (List.append_nil _).symm
      exact advance_mem_of_complete hg hi hnext hread hk (Nat.zero_add _) rfl hempty

theorem stopItem_mem_column_iff (hg : g.WellFormed) :
    stopItem ∈ (ofGrammar g).column w ↔ g.Derives w := by
  have hnew := (Grammar.unusedName_not_taken g "S`").1
  have hnot : g.unusedName "S`" ∉ [g.start] := by
    intro h
    exact hnew (List.mem_singleton.1 h ▸ Grammar.start_mem_vars g)
  have hne : g.start ≠ epsilonSymbol := by
    intro h
    exact hg.epsilon_not_variable (h ▸ Grammar.start_mem_vars g)
  have hfilter : [g.start].filter (· ≠ epsilonSymbol) = [g.start] :=
    List.filter_cons_of_pos (by simpa using hne)
  rw [Grammar.Derives, ← hg.yields_augmentStart_iff (by decide) hnot]
  constructor
  · intro h
    obtain ⟨v, r, -, hrule, -, hyields⟩ := reads_of_mem_column hg _ h
    have hsame := hrule.symm.trans (getElem?_zero_ofGrammar hg)
    have hparts := congrArg (List.map Part.name) (Prod.ext_iff.1 (Option.some.inj hsame)).2
    rw [map_name_parts, map_name_parts, hfilter] at hparts
    rw [hparts] at hyields
    exact hyields
  · intro h
    have hmoved := moved_mem_column hg h startItem_mem_column (getElem?_zero_ofGrammar hg)
      (List.append_nil _).symm
    rw [hfilter] at hmoved
    exact hmoved

/-! ### Reading a sequence of tokens -/

section ReadOn

variable {c : Chart}

theorem readOn_iff :
    c.readOn (c.earlier u) (c.column u) w ↔ stopItem ∈ c.column (u ++ w) := by
  induction w generalizing u with
  | nil =>
    rw [readOn, List.append_nil]
    exact decide_eq_true_iff
  | cons t w ih =>
    have happend : u ++ t :: w = (u ++ [t]) ++ w := by rw [List.append_assoc]; rfl
    rw [readOn, happend]
    split
    · next items hitems =>
      have hcolumn : c.column (u ++ [t]) = c.close ((c.earlier u).push (c.column u)) items := by
        rw [column_append, earlier_append, ExtTreeMap.getD_eq_getD_getElem?, hitems]
        rfl
      dsimp only
      rw [← hcolumn, ← earlier_append]
      exact ih
    · next hnone =>
      simp only [Bool.false_eq_true, false_iff]
      intro h
      obtain ⟨i, hi⟩ := exists_mem_of_append h
      obtain ⟨j, hj, hnext⟩ := exists_scan_of_mem hi
      have hmem := mem_scans.2 ⟨j, hj, hnext⟩
      rw [ExtTreeMap.mem_iff_isSome_getElem?, hnone] at hmem
      cases hmem

theorem reads_iff : c.reads w ↔ stopItem ∈ c.column w := readOn_iff (u := [])

end ReadOn

end Chart

namespace Grammar

open Chart

/-- The loops that make the columns end, and a sequence of tokens is accepted if and only if it
is derived from the start. -/
theorem accepts_iff_derives {g : Grammar} (hg : g.WellFormed) :
    (∀ u, (ofGrammar g).Finishes u) ∧
    (∀ w, g.accepts w = true ↔ g.Derives w) ∧
    (∀ w, (∃ t ∈ w, t ∉ g.terminals) → g.accepts w = false) ∧
    ∀ text, g.acceptsText text = g.accepts (text.map Char.toString) := by
  have haccepts : ∀ w, g.accepts w = true ↔ g.Derives w :=
    fun w => reads_iff.trans (stopItem_mem_column_iff hg)
  refine ⟨(indexed_ofGrammar hg).finishes, haccepts, ?_, fun _ => rfl⟩
  rintro w ⟨t, ht, hnot⟩
  apply Bool.eq_false_iff.2
  intro h
  exact hnot (((haccepts w).1 h).mem_terminals t ht)

theorem accepts_nested : nested.WellFormed ∧ nested.accepts ["a", "a", "b", "b"] = true ∧
    nested.accepts ["a", "c"] = false := by
  obtain ⟨-, haccepts, hreject, -⟩ := accepts_iff_derives nested_wellFormed
  refine ⟨nested_wellFormed, (haccepts _).2 (nested_derives 2), hreject _ ⟨"c", by simp, ?_⟩⟩
  simp [nested, Grammar.empty]

end Grammar

end FormalLanguages
