import FormalLanguages.Proofs.Chart.Membership
import FormalLanguages.Proofs.Chart.Scans
import FormalLanguages.Proofs.Grammar.Sentential

/-!
# What a column holds

An item is in a column if and only if the start can be rewritten to the tokens before its origin
with the head of its rule behind them, and the symbols before its dot to the tokens from there on.
The loop that closes a column ends with all such items, and with those that can be read on from
them, for each terminal apart.
-/

namespace FormalLanguages

open Std

namespace Chart

open Search

variable {g : Grammar} {b r : Rule} {i : Item} {s t v : String} {e p q u w x : List String} {k n : Nat}

/-! ### Variables that are expected -/

/-- The start can be rewritten to the tokens with the variable, and perhaps more, behind them. -/
def Expected (g : Grammar) (u : List String) (v : String) : Prop :=
  ∃ q, (ofGrammar g).grammar.RewritesTo [(ofGrammar g).grammar.start] (u ++ v :: q)

def HeadExpected (g : Grammar) (u : List String) (i : Item) : Prop :=
  ∃ v α, (ofGrammar g).rules[i.rule]? = some (v, α) ∧ Expected g (u.take i.origin) v

/-- The symbols that are read do not stand for the empty word. -/
theorem filter_eq_self_of_subset (h : e ⊆ r.filter (· ≠ epsilonSymbol)) :
    e.filter (· ≠ epsilonSymbol) = e :=
  List.filter_eq_self.2 fun _ hs => (List.mem_filter.1 (h hs)).2

/-- What comes after the dot is expected after all that was read. -/
theorem HeadExpected.expected (hg : g.WellFormed) (h : HeadExpected g u i) (hi : Reads g u i)
    (hnext : (ofGrammar g).next? i = some (.variable v)) : Expected g u v := by
  obtain ⟨v', r, hr, hrule, -, hyields⟩ := hi
  obtain ⟨v'', α, hrule', q, hq⟩ := h
  obtain ⟨s, hs, hpart⟩ := (next?_eq_some_iff_of_rule hrule).1 hnext
  obtain ⟨rfl, -⟩ := part_eq_variable_iff.1 hpart
  rw [hrule] at hrule'
  cases hrule'
  have hread := (wellFormed_ofGrammar hg).rewritesTo_of_yields hyields
  rw [filter_eq_self_of_subset (List.take_subset ..)] at hread
  have hsplit : r.filter (· ≠ epsilonSymbol) = (r.filter (· ≠ epsilonSymbol)).take i.dot ++
      s :: (r.filter (· ≠ epsilonSymbol)).drop (i.dot + 1) := by
    obtain ⟨hlt, hget⟩ := List.getElem?_eq_some_iff.1 hs
    rw [← hget, ← List.drop_eq_getElem_cons hlt, List.take_append_drop]
  have hform := hq.tail (.rule (u.take i.origin) q hr)
  rw [hsplit] at hform
  generalize (r.filter (· ≠ epsilonSymbol)).take i.dot = before at hread hform
  generalize (r.filter (· ≠ epsilonSymbol)).drop (i.dot + 1) = behind at hform
  have hrest := hread.congr (u.take i.origin) (s :: (behind ++ q))
  have hsame : u.take i.origin ++ (before ++ s :: behind) ++ q =
      u.take i.origin ++ before ++ s :: (behind ++ q) := by simp
  rw [List.take_append_drop] at hrest
  rw [hsame] at hform
  exact ⟨behind ++ q, hform.trans hrest⟩

theorem headExpected_of_mem_column (hg : g.WellFormed) :
    ∀ i ∈ (ofGrammar g).column u, HeadExpected g u i := by
  have hboth : ∀ i ∈ (ofGrammar g).column u, Reads g u i ∧ HeadExpected g u i := by
    apply column_induction
    · exact ⟨reads_startItem hg, _, _, getElem?_zero_ofGrammar hg, [], .refl⟩
    · rintro u t i ⟨hi, v, α, hrule, hexp⟩ ht
      refine ⟨hi.scan ht, v, α, hrule, ?_⟩
      obtain ⟨-, -, -, -, horigin, -⟩ := hi
      rwa [Item.advance, List.take_append_of_le_length horigin]
    · rintro u i v ⟨hi, hhead⟩ hv k hk
      obtain ⟨α, hrule⟩ := ((indexed_ofGrammar hg).mem_rulesOf v k).1 hk
      refine ⟨reads_predict hg hk, v, α, hrule, ?_⟩
      rw [List.take_length]
      exact hhead.expected hg hi hv
    · exact fun u i v hi hv hnull => ⟨hi.1.skip hv hnull, hi.2⟩
    · rintro u i v j ⟨hi, -⟩ hnone hv ⟨hj, v', α, hrule, hexp⟩ hnext
      refine ⟨hi.complete hg hnone hv hj hnext, v', α, hrule, ?_⟩
      obtain ⟨-, -, -, -, horigin, -⟩ := hj
      rw [List.length_take] at horigin
      rwa [List.take_take, Nat.min_eq_left (Nat.le_trans horigin (Nat.min_le_left ..))] at hexp
  exact fun i hi => (hboth i hi).2

/-! ### Rules that begin where they are expected -/

/-- An item waits for the variable when the tokens have come, or it is the start and none have. -/
def Awaited (g : Grammar) (x : List String) (v : String) : Prop :=
  v = (ofGrammar g).grammar.start ∧ x = [] ∨
    ∃ i ∈ (ofGrammar g).column x, (ofGrammar g).next? i = some (.variable v)

theorem Awaited.begin_mem (hg : g.WellFormed) {α : List Part} (h : Awaited g x v)
    (hk : (ofGrammar g).rules[k]? = some (v, α)) :
    ⟨k, 0, x.length⟩ ∈ (ofGrammar g).column x := by
  rcases h with ⟨rfl, rfl⟩ | ⟨i, hi, hnext⟩
  · rw [eq_zero_of_start hg hk]
    exact startItem_mem_column
  · have hc := indexed_ofGrammar hg
    exact hc.predict_mem hi hnext ((hc.mem_rulesOf v k).2 ⟨α, hk⟩)

/-- A variable of a rule is awaited after what the symbols before it yield, if the head of the rule
was awaited where they begin. -/
theorem Awaited.of_rule (hg : g.WellFormed) {head : String} {r' : Rule} (h : Awaited g x head)
    (hb : b ∈ (ofGrammar g).grammar.rules head)
    (hsplit : b.filter (· ≠ epsilonSymbol) = r ++ v :: r')
    (hv : v ∈ (ofGrammar g).grammar.vars) (hr : (ofGrammar g).grammar.Yields r u) :
    Awaited g (x ++ u) v := by
  obtain ⟨k, hk⟩ := getElem?_of_rule hg hb
  have hbegin := h.begin_mem hg hk
  have hfilter : r.filter (· ≠ epsilonSymbol) = r := by
    apply filter_eq_self_of_subset (r := b)
    rw [hsplit]
    exact List.subset_append_left _ _
  have hdot : (b.filter (· ≠ epsilonSymbol)).drop 0 =
      r.filter (· ≠ epsilonSymbol) ++ v :: r' := by
    rw [hfilter, List.drop_zero, hsplit]
  have hmoved := moved_mem_column hg hr hbegin hk hdot
  have hkept : (ofGrammar g).rules[(moved ⟨k, 0, x.length⟩
      (r.filter (· ≠ epsilonSymbol)).length).rule]? = _ := hk
  refine .inr ⟨_, hmoved, ?_⟩
  apply (next?_eq_some_iff_of_rule hkept).2
  refine ⟨v, ?_, part_eq_variable_iff.2 ⟨rfl, (wellFormed_ofGrammar hg).disjoint v hv⟩⟩
  rw [hsplit, moved, hfilter, Nat.zero_add]
  show (r ++ v :: r')[r.length]? = some v
  rw [List.getElem?_append_right (Nat.le_refl _), Nat.sub_self]
  rfl

/-- A symbol of a list of two parts is in the first part or in the second. -/
theorem cons_of_append_eq {a d : List String} (h : a ++ d = p ++ v :: q) :
    (∃ a', a = p ++ v :: a') ∨ ∃ y z, d = y ++ v :: z ∧ p = a ++ y := by
  rcases List.append_eq_append_iff.1 h with ⟨y, rfl, hd⟩ | ⟨a', rfl, hq⟩
  · exact .inr ⟨y, q, hd, rfl⟩
  · cases a' with
    | nil => exact .inr ⟨[], q, hq.symm, by simp⟩
    | cons s a' =>
      obtain ⟨rfl, -⟩ := List.cons_eq_cons.1 hq
      exact .inl ⟨a', rfl⟩

/-- A variable in a form to which the start leads is awaited when the tokens have come that the
symbols before it yield. -/
theorem awaited_of_rewritesTo (hg : g.WellFormed)
    (h : (ofGrammar g).grammar.RewritesTo [(ofGrammar g).grammar.start] e) :
    ∀ p v q, e = p ++ v :: q → v ∈ (ofGrammar g).grammar.vars →
      ∀ x, (ofGrammar g).grammar.Yields p x → Awaited g x v := by
  have hG := wellFormed_ofGrammar hg
  induction h with
  | refl =>
    intro p v q heq _ x hx
    obtain ⟨rfl, rfl, rfl⟩ : p = [] ∧ v = (ofGrammar g).grammar.start ∧ q = [] := by
      cases p <;> simp_all
    exact .inl ⟨rfl, Grammar.yields_nil_iff.1 hx⟩
  | tail _ hstep ih =>
    cases hstep with
    | @rule a d head b hb =>
    have hhead := hG.mem_vars_of_rule hb
    intro p v q heq hv x hx
    rw [List.append_assoc] at heq
    rcases cons_of_append_eq heq with ⟨a', rfl⟩ | ⟨y, z, hyz, rfl⟩
    · -- the variable was there before the rule was used, and before its head
      exact ih p v (a' ++ head :: d) (by simp) hv x hx
    obtain ⟨xa, xy, rfl, ha, hy⟩ := hx.exists_of_append
    rcases cons_of_append_eq hyz with ⟨b', hb'⟩ | ⟨d', z', rfl, rfl⟩
    · -- the variable is one of the symbols of the rule
      exact (ih a head d rfl hhead xa ha).of_rule hg hb hb' hv hy
    · -- it was there before, behind the head
      obtain ⟨xb, xd, rfl, hyb, hyd⟩ := hy.exists_of_append
      have hyields := ha.append ((Grammar.Yields.of_rule hb (hG.yields_filter_iff.1 hyb)).append hyd)
      exact ih (a ++ ([head] ++ d')) v z' (by simp) hv _ hyields

/-! ### The items of a column -/

/-- The start can be rewritten to the tokens before the origin with the head of the rule behind
them, and the symbols before the dot to the tokens from the origin on. -/
def IsValid (g : Grammar) (w : List String) (i : Item) : Prop :=
  ∃ v α β γ, (ofGrammar g).rules[i.rule]? = some (v, α ++ β) ∧ i.dot = α.length ∧
    i.origin ≤ w.length ∧
    (g.augmentStart "S`").RewritesTo [(g.augmentStart "S`").start]
      (w.take i.origin ++ v :: γ) ∧
    (g.augmentStart "S`").RewritesTo (α.map Part.name) (w.drop i.origin)

theorem isValid_of_mem_column (hg : g.WellFormed) (hi : i ∈ (ofGrammar g).column w) :
    IsValid g w i := by
  obtain ⟨v, r, hr, hrule, horigin, hyields⟩ := reads_of_mem_column hg i hi
  obtain ⟨v', α, hrule', γ, hform⟩ := headExpected_of_mem_column hg i hi
  obtain ⟨v'', α', hrule'', hdot, -⟩ := (indexed_ofGrammar hg).inRange_column i hi
  rw [hrule] at hrule' hrule''
  cases hrule'
  cases hrule''
  refine ⟨v, (parts (ofGrammar g).grammar r).take i.dot, (parts (ofGrammar g).grammar r).drop i.dot,
    γ, ?_, ?_, horigin, hform, ?_⟩
  · rw [List.take_append_drop]
    exact hrule
  · rw [List.length_take, Nat.min_eq_left hdot]
  · have hread := (wellFormed_ofGrammar hg).rewritesTo_of_yields hyields
    rw [filter_eq_self_of_subset (List.take_subset ..), ← map_name_parts (g := (ofGrammar g).grammar),
      ← List.map_take] at hread
    exact hread

theorem mem_column_of_isValid (hg : g.WellFormed) (hw : ∀ t ∈ w, t ∈ g.terminals)
    (h : IsValid g w i) : i ∈ (ofGrammar g).column w := by
  obtain ⟨v, α, β, γ, hrule, hdot, horigin, hform, hread⟩ := h
  have hG := wellFormed_ofGrammar hg
  have hterm : ∀ t ∈ w, t ∈ (ofGrammar g).grammar.terminals := by
    intro t ht
    rw [ofGrammar, Grammar.terminals_augmentStart]
    exact hw t ht
  obtain ⟨hv, r, -, hparts⟩ := mem_rules_ofGrammar.1 (Array.mem_of_getElem? hrule)
  have hsymbols : r.filter (· ≠ epsilonSymbol) = α.map Part.name ++ β.map Part.name := by
    rw [← List.map_append, ← hparts, map_name_parts]
  have hself : (α.map Part.name).filter (· ≠ epsilonSymbol) = α.map Part.name := by
    apply filter_eq_self_of_subset (r := r)
    rw [hsymbols]
    exact List.subset_append_left _ _
  have hyields : (ofGrammar g).grammar.Yields (α.map Part.name) (w.drop i.origin) :=
    hG.yields_of_rewritesTo hread (Grammar.yields_self fun t ht => hterm t (List.mem_of_mem_drop ht))
  have hawaited : Awaited g (w.take i.origin) v :=
    awaited_of_rewritesTo hg hform _ v γ rfl hv _
      (Grammar.yields_self fun t ht => hterm t (List.mem_of_mem_take ht))
  have hmoved := moved_mem_column hg hyields (hawaited.begin_mem hg hrule)
    (hparts ▸ hrule) (by rw [hself, List.drop_zero, hsymbols])
  rw [List.take_append_drop, hself, moved, List.length_map, List.length_take,
    Nat.min_eq_left horigin, Nat.zero_add, ← hdot] at hmoved
  exact hmoved

/-! ### Columns while tokens are read -/

/-- The tokens have been read. These are the columns before the last one, and the items that the
last one begins with. -/
inductive Consumes (c : Chart) : List String → Array Column → List Item → Prop
  | start : Consumes c [] #[] [startItem]
  | token {w columns items t scanned} : Consumes c w columns items →
    (c.scans (c.close columns items))[t]? = some scanned →
    Consumes c (w ++ [t]) (columns.push (c.close columns items)) scanned

theorem Consumes.eq_starts {c : Chart} {columns : Array Column} {items : List Item}
    (h : c.Consumes w columns items) : columns = c.earlier w ∧ items = c.starts w := by
  induction h with
  | start => exact ⟨rfl, rfl⟩
  | @token w columns items t scanned _ hscan ih =>
    obtain ⟨rfl, rfl⟩ := ih
    rw [← column_eq] at hscan ⊢
    refine ⟨earlier_append.symm, ?_⟩
    rw [starts, List.getLast?_concat, List.dropLast_concat]
    exact (eq_onward_of_scans hscan).trans (getD_scans ..).symm

theorem Consumes.mem_terminals {columns : Array Column} {items : List Item}
    (h : (ofGrammar g).Consumes w columns items) : ∀ t ∈ w, t ∈ g.terminals := by
  induction h with
  | start => exact fun _ h => absurd h List.not_mem_nil
  | @token w columns items t scanned _ hscan ih =>
    intro s hs
    rcases List.mem_append.1 hs with hs | hs
    · exact ih s hs
    rw [List.mem_singleton.1 hs]
    obtain ⟨i, -, hi⟩ := mem_scans.1 (ExtTreeMap.mem_iff_isSome_getElem?.2 (by rw [hscan]; rfl))
    obtain ⟨v, α, hrule, hpart⟩ := next?_eq_some_iff.1 hi
    obtain ⟨r, -, rfl⟩ := exists_rule_of_getElem? hrule
    obtain ⟨s, -, hs⟩ := List.mem_map.1 (List.mem_of_getElem? hpart)
    have hterm := (part_eq_terminal_iff.1 hs).2
    rwa [ofGrammar, Grammar.terminals_augmentStart] at hterm

/-- When tokens have been read, the loop that closes the last column ends, without a bound on its
turns. The column has the valid items then. For a terminal the loop has noted what comes about when
the terminal is read, and nothing if there is no such item, and the same is found in the column. -/
theorem items_exact (hg : g.WellFormed) {columns : Array Column} {items : List Item}
    (h : (ofGrammar g).Consumes w columns items) :
    (∃ result noted, (ofGrammar g).Expands columns (items.foldl (visit .queue) ([], {})).1
      (items.foldl (visit .queue) ([], {})).2 ∅ result noted ∧
      result.seen = (ofGrammar g).close columns items ∧
      ∀ t : String, (noted[t]? = none ↔
          ∀ j, ¬ (ofGrammar g).IsOnward ((ofGrammar g).close columns items) t j) ∧
        ∀ next, noted[t]? = some next →
          ∀ j, j ∈ next ↔ (ofGrammar g).IsOnward ((ofGrammar g).close columns items) t j) ∧
    (∀ i, i ∈ (ofGrammar g).close columns items ↔ IsValid g w i) ∧
    ∀ t : String, (((ofGrammar g).scans ((ofGrammar g).close columns items))[t]? = none ↔
        ∀ j, ¬ (ofGrammar g).IsOnward ((ofGrammar g).close columns items) t j) ∧
      ∀ next, ((ofGrammar g).scans ((ofGrammar g).close columns items))[t]? = some next →
        next.Nodup ∧
        ∀ j, j ∈ next ↔ (ofGrammar g).IsOnward ((ofGrammar g).close columns items) t j := by
  have hw := h.mem_terminals
  obtain ⟨rfl, rfl⟩ := h.eq_starts
  obtain ⟨result, noted, hexpands, hseen, hnotes⟩ := (indexed_ofGrammar hg).exists_expands w
  rw [← column_eq]
  refine ⟨⟨result, noted, hexpands, hseen, hnotes.getElem?_eq⟩, fun i => ?_, fun t => ?_⟩
  · exact ⟨isValid_of_mem_column hg, mem_column_of_isValid hg hw⟩
  · refine ⟨getElem?_scans_eq_none_iff, fun next hnext => ?_⟩
    rw [eq_onward_of_scans hnext]
    exact ⟨nodup_onward _ _ _, fun j => mem_onward⟩

/-- Between an `a` and the `b` that belongs to it, nothing or a whole sentence may stand, and the
start is not read. -/
theorem items_nested : Grammar.nested.WellFormed ∧
    (ofGrammar Grammar.nested).Consumes ["a"] #[(ofGrammar Grammar.nested).first] [⟨2, 1, 0⟩] ∧
    IsValid Grammar.nested ["a"] ⟨2, 2, 0⟩ ∧ IsValid Grammar.nested ["a"] ⟨2, 0, 1⟩ ∧
    ¬ IsValid Grammar.nested ["a"] ⟨0, 1, 0⟩ ∧
    ((ofGrammar Grammar.nested).scans ((ofGrammar Grammar.nested).close
      #[(ofGrammar Grammar.nested).first] [⟨2, 1, 0⟩]))["b"]? = some [⟨2, 3, 0⟩] ∧
    (ofGrammar Grammar.nested).IsOnward ((ofGrammar Grammar.nested).close
      #[(ofGrammar Grammar.nested).first] [⟨2, 1, 0⟩]) "b" ⟨2, 3, 0⟩ := by
  have h : (ofGrammar Grammar.nested).Consumes ["a"] #[(ofGrammar Grammar.nested).first]
      [⟨2, 1, 0⟩] :=
    Consumes.start.token (t := "a") (by decide +kernel)
  obtain ⟨-, hvalid, hscans⟩ := items_exact Grammar.nested_wellFormed h
  have hb : ((ofGrammar Grammar.nested).scans ((ofGrammar Grammar.nested).close
      #[(ofGrammar Grammar.nested).first] [⟨2, 1, 0⟩]))["b"]? = some [⟨2, 3, 0⟩] := by
    decide +kernel
  refine ⟨Grammar.nested_wellFormed, h, (hvalid _).1 ?_, (hvalid _).1 ?_, fun h => ?_, hb, ?_⟩
  · decide +kernel
  · decide +kernel
  · exact absurd ((hvalid _).2 h) (by decide +kernel)
  · exact (((hscans "b").2 _ hb).2 _).1 (List.mem_singleton_self _)

end Chart

end FormalLanguages
