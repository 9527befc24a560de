import FormalLanguages.Grammar.Inline
import FormalLanguages.Proofs.Grammar.Trim

/-!
# Inlining keeps the language

Each step expands symbols: a variable gives way to another one, to the symbols of one of its
rules, or to nothing. What holds of one step holds of all the steps taken.
-/

namespace FormalLanguages

open Std

namespace Rule

variable {v : String} {body r c : Rule} {bodies : List Rule}

/-- A variable gives way to one of some rules. -/
def Instead (v : String) (bodies : List Rule) (s : String) (x : Rule) : Prop :=
  if s = v then x ∈ bodies else x = [s]

theorem instead_iff_of_ne {s : String} {x : Rule} (h : s ≠ v) :
    Instead v bodies s x ↔ x = [s] := by
  simp [Instead, h]

theorem instead_self {x : Rule} : Instead v bodies v x ↔ x ∈ bodies := by
  simp [Instead]

theorem mem_substitute_iff :
    c ∈ Grammar.substitute v bodies r ↔ r.Expands (Instead v bodies) c := by
  induction r generalizing c with
  | nil => simp [Grammar.substitute, expands_nil_iff]
  | cons s r ih =>
    rw [expands_cons_iff, Grammar.substitute]
    by_cases hs : s = v
    · simp only [hs, if_true, List.mem_flatMap, List.mem_map, ih, instead_self]
      grind
    · simp only [hs, if_false, List.mem_map, ih, instead_iff_of_ne hs]
      grind

theorem eq_replace_iff : c = Grammar.replace v body r ↔ r.Expands (Instead v [body]) c := by
  unfold Grammar.replace
  rw [← expands_eq_iff]
  apply expands_congr
  intro s _ x
  simp only [Instead, List.mem_singleton]
  split <;> rfl

/-- Nothing changes where the variable does not occur. -/
theorem instead_eq_self (h : r.Expands (Instead v bodies) c) (hv : v ∉ r) : c = r := by
  rw [← expands_self_iff]
  refine (expands_congr fun s hs x => ?_).1 h
  exact instead_iff_of_ne fun e => hv (e ▸ hs)

end Rule

namespace Grammar

variable {g : Grammar} {b r : Rule} {u v : String} {w : List String}

/-! ### Putting rules in the place of a variable -/

section Substitution

variable {f : String → Rule → List Rule}

theorem yields_of_instead {s : String} {x : Rule} (hx : Rule.Instead v (g.rules v).toList s x)
    (hw : g.Yields x w) : g.Yields [s] w := by
  by_cases hs : s = v
  · rw [hs, Rule.instead_self, ExtTreeSet.mem_toList] at hx
    exact hs ▸ .of_rule hx hw
  · rw [Rule.instead_iff_of_ne hs] at hx
    exact hx ▸ hw

variable (hg : g.WellFormed) (hv : v ∈ g.others) (hrules : ∀ b ∈ g.rules v, v ∉ b)
  (hf : ∀ u r c, c ∈ f u r ↔ r.Expands (Rule.Instead v (g.rules v).toList) c)

include hg hv hrules hf

theorem WellFormed.substitution : ((g.mapRules f).dropVariable v).WellFormed := by
  have hvar : v ∈ g.vars := List.mem_cons_of_mem _ hv
  have hmap : (g.mapRules f).WellFormed := by
    apply hg.mapRules_of_expands fun u r c => (hf u r c).1
    intro a x ha hx s hs
    by_cases hav : a = v
    · rw [hav, Rule.instead_self, ExtTreeSet.mem_toList] at hx
      exact hg.symbol_of_mem hx hs
    · rw [Rule.instead_iff_of_ne hav] at hx
      rw [hx, List.mem_singleton] at hs
      exact hs ▸ ha
  apply hmap.dropVariable (hg.ne_start hv)
  intro u _ r hr hvr
  obtain ⟨r, -, c, hc, rfl⟩ := mem_rules_mapRules.1 hr
  -- the variable is in no expansion, and it is not the empty word
  rcases Rule.mem_collapse hvr with ⟨hvc, -⟩ | hε
  · obtain ⟨a, -, x, hx, hvx⟩ := ((hf u r c).1 hc).mem hvc
    by_cases hav : a = v
    · rw [hav, Rule.instead_self, ExtTreeSet.mem_toList] at hx
      exact hrules x hx hvx
    · rw [Rule.instead_iff_of_ne hav] at hx
      rw [hx, List.mem_singleton] at hvx
      exact hav hvx.symm
  · rw [hε] at hvr
    exact hg.epsilon_not_variable (List.mem_singleton.1 hvr ▸ hvar)

theorem WellFormed.expansion_substitution :
    Expansion (Rule.Instead v (g.rules v).toList) g ((g.mapRules f).dropVariable v) := by
  have hh := hg.substitution hv hrules hf
  apply Expansion.mk (g := g) hh rfl
  · intro t ht
    exact (Rule.instead_iff_of_ne (hg.ne_variable ht (List.mem_cons_of_mem _ hv))).2 rfl
  · exact fun s x w => yields_of_instead
  · intro u b hb w hw
    rw [rules_dropVariable] at hb
    split at hb
    · exact absurd hb ExtTreeSet.not_mem_empty
    · exact hg.yields_of_mapRules (fun u r c => (hf u r c).1) (fun s x w => yields_of_instead) hb hw
  · intro u r hr c w _ hc hw
    by_cases hu : u = v
    · have hcr := Rule.instead_eq_self hc (hrules r (hu ▸ hr))
      refine ⟨c, ?_, hw⟩
      rw [hu, Rule.instead_self, ExtTreeSet.mem_toList, hcr]
      exact hu ▸ hr
    · refine ⟨[u], (Rule.instead_iff_of_ne hu).2 rfl, ?_⟩
      apply Yields.of_rule (b := c.collapse)
      · rw [rules_dropVariable, if_neg hu]
        exact mem_rules_mapRules.2 ⟨r, hr, c, (hf u r c).2 hc, rfl⟩
      · exact hh.yields_collapse_iff.2 hw

/-- A variable other than the start that its rules do not mention can be left out once its rules
stand in its place. -/
theorem WellFormed.conservative_substitution :
    g.Conservative ((g.mapRules f).dropVariable v) := by
  apply (hg.expansion_substitution hv hrules hf).conservative
  intro u hu
  obtain ⟨hu, hne⟩ := (mem_vars_dropVariable (hg.ne_start hv)).1 hu
  exact ⟨hu, fun _ => Rule.instead_iff_of_ne hne⟩

end Substitution

/-- `h` is `g` without one of its variables, whose rules stand in its place. -/
def Substitutes (g h : Grammar) : Prop :=
  ∃ v ∈ g.others, (∀ b ∈ g.rules v, v ∉ b) ∧ ∃ f : String → Rule → List Rule,
    (∀ u r c, c ∈ f u r ↔ r.Expands (Rule.Instead v (g.rules v).toList) c) ∧
      h = (g.mapRules f).dropVariable v

theorem Substitutes.conservative {h : Grammar} (hgh : g.Substitutes h) (hg : g.WellFormed) :
    g.Conservative h := by
  obtain ⟨v, hv, hrules, f, hf, rfl⟩ := hgh
  exact hg.conservative_substitution hv hrules hf

theorem Substitutes.start_eq {h : Grammar} (hgh : g.Substitutes h) : h.start = g.start := by
  obtain ⟨v, -, -, f, -, rfl⟩ := hgh
  rfl

/-- However the variables are chosen, those that are left stand for the same words. -/
theorem WellFormed.conservative_of_substitutes (hg : g.WellFormed)
    {step? : Grammar → Option Grammar} (hstep : ∀ k k', step? k = some k' → k.Substitutes k')
    (bound : Nat) :
    g.Conservative (exhaust step? bound g) ∧ (exhaust step? bound g).start = g.start := by
  apply exhaust_induction (P := fun k => g.Conservative k ∧ k.start = g.start)
  · rintro k k' ⟨hk, hstart⟩ hkk'
    have hsub := hstep k k' hkk'
    exact ⟨hk.trans (hsub.conservative hk.wellFormed), hsub.start_eq.trans hstart⟩
  · exact ⟨.refl hg, rfl⟩

theorem single?_eq_some (h : g.single? = some (v, b)) :
    v ∈ g.others ∧ (g.rules v).toList = [b] ∧ v ∉ b := by
  obtain ⟨u, hu, h⟩ := List.exists_of_findSome?_eq_some h
  split at h
  · next r hr =>
    split at h
    · cases h
    · next hv =>
      cases h
      exact ⟨hu, soleRule?_eq_some_iff.1 hr, hv⟩
  · cases h

def singleStep? (g : Grammar) : Option Grammar :=
  g.single?.map fun (v, b) => (g.mapRules fun _ r => [replace v b r]).dropVariable v

theorem substitutes_of_singleStep {h : Grammar} (hstep : g.singleStep? = some h) :
    g.Substitutes h := by
  obtain ⟨⟨v, b⟩, hsingle, rfl⟩ := Option.map_eq_some_iff.1 hstep
  obtain ⟨hv, hsole, hvb⟩ := single?_eq_some hsingle
  refine ⟨v, hv, fun r hr => ?_, _, fun u r c => ?_, rfl⟩
  · rw [← ExtTreeSet.mem_toList, hsole, List.mem_singleton] at hr
    exact hr ▸ hvb
  · rw [hsole, List.mem_singleton]
    exact Rule.eq_replace_iff

def nonRecursiveStep? (g : Grammar) : Option Grammar :=
  g.nonRecursive?.map fun v =>
    (g.mapRules fun _ => substitute v (g.rules v).toList).dropVariable v

theorem substitutes_of_nonRecursiveStep {h : Grammar} (hstep : g.nonRecursiveStep? = some h) :
    g.Substitutes h := by
  obtain ⟨v, hfind, rfl⟩ := Option.map_eq_some_iff.1 hstep
  refine ⟨v, List.mem_of_find?_eq_some hfind, fun r hr => ?_, _, fun u r c => ?_, rfl⟩
  · have hall := List.find?_some (p := fun v => (g.rules v).toList.all (v ∉ ·)) hfind
    simpa using List.all_eq_true.1 hall r (ExtTreeSet.mem_toList.2 hr)
  · exact Rule.mem_substitute_iff

theorem WellFormed.conservative_eliminateSingleRule (hg : g.WellFormed) :
    g.Conservative g.eliminateSingleRule ∧ g.eliminateSingleRule.start = g.start :=
  hg.conservative_of_substitutes (fun _ _ => substitutes_of_singleStep) _

theorem WellFormed.conservative_eliminateNonSelfRecursive (hg : g.WellFormed) :
    g.Conservative g.eliminateNonSelfRecursive ∧ g.eliminateNonSelfRecursive.start = g.start :=
  hg.conservative_of_substitutes (fun _ _ => substitutes_of_nonRecursiveStep) _

theorem WellFormed.equivalent_eliminateSingleRule (hg : g.WellFormed) :
    g.Equivalent g.eliminateSingleRule :=
  hg.conservative_eliminateSingleRule.1.equivalent hg.conservative_eliminateSingleRule.2

theorem WellFormed.equivalent_eliminateNonSelfRecursive (hg : g.WellFormed) :
    g.Equivalent g.eliminateNonSelfRecursive :=
  hg.conservative_eliminateNonSelfRecursive.1.equivalent
    hg.conservative_eliminateNonSelfRecursive.2

/-! ### Leaving out variables that derive nothing but the empty word -/

def Vanishing (null : ExtTreeSet String) (s : String) (x : Rule) : Prop :=
  x = if s ∈ null then [] else [s]

theorem eq_filter_iff {null : ExtTreeSet String} {c : Rule} :
    c = r.filter (· ∉ null) ↔ r.Expands (Vanishing null) c := by
  have h : r.filter (· ∉ null) = r.flatMap fun s => if s ∈ null then [] else [s] := by
    induction r with
    | nil => rfl
    | cons s r ih =>
      rw [List.filter_cons, List.flatMap_cons, ih]
      by_cases hs : s ∈ null <;> simp [hs]
  unfold Vanishing
  rw [Rule.expands_eq_iff, h]

theorem WellFormed.vanishing (hg : g.WellFormed) (null : ExtTreeSet String) :
    ((g.mapRules fun _ r => [r.filter (· ∉ null)]).retain (· ∉ null)).WellFormed := by
  have hmap : (g.mapRules fun _ r => [r.filter (· ∉ null)]).WellFormed := by
    apply hg.mapRules
    intro v r hr c hc s hs
    rw [List.mem_singleton.1 hc] at hs
    exact hg.symbol_of_mem hr (List.mem_filter.1 hs).1
  apply hmap.retain
  intro v _ r hr s hs hvar
  obtain ⟨r, -, c, hc, rfl⟩ := mem_rules_mapRules.1 hr
  rw [List.mem_singleton] at hc
  rcases Rule.mem_collapse hs with ⟨hsc, -⟩ | hε
  · rw [hc] at hsc
    exact .inr (List.mem_filter.1 hsc).2
  · rw [hε] at hs
    exact absurd (List.mem_singleton.1 hs ▸ hvar) hg.epsilon_not_variable

theorem WellFormed.expansion_vanishing (hg : g.WellFormed) {null : ExtTreeSet String}
    (hvar : ∀ v ∈ null, v ∈ g.others) (hnull : ∀ v ∈ null, ∀ w, g.Yields [v] w ↔ w = []) :
    Expansion (Vanishing null) g
      ((g.mapRules fun _ r => [r.filter (· ∉ null)]).retain (· ∉ null)) := by
  have hh := hg.vanishing null
  have hf : ∀ (v : String) (r c : Rule), c ∈ [r.filter (· ∉ null)] → r.Expands (Vanishing null) c :=
    fun v r c hc => eq_filter_iff.1 (List.mem_singleton.1 hc)
  have hsymbol : ∀ s x w, Vanishing null s x → g.Yields x w → g.Yields [s] w := by
    rintro s x w rfl hw
    split at hw
    · next hs => exact (hnull s hs w).2 (yields_nil_iff.1 hw)
    · exact hw
  apply Expansion.mk (g := g) hh rfl
  · intro t ht
    rw [Vanishing, if_neg fun h => hg.ne_variable ht (List.mem_cons_of_mem _ (hvar t h)) rfl]
  · exact hsymbol
  · intro v b hb w hw
    exact hg.yields_of_mapRules hf hsymbol (mem_rules_retain.1 hb).2 hw
  · intro v r hr c w hrw hc hw
    by_cases hv : v ∈ null
    · refine ⟨[], (if_pos hv).symm, ?_⟩
      rw [yields_nil_iff]
      exact (hnull v hv w).1 (.of_rule hr hrw)
    · refine ⟨[v], (if_neg hv).symm, ?_⟩
      have hkept : v = g.start ∨ v ∈ g.others ∧ decide (v ∉ null) = true :=
        (mem_vars_iff.1 (hg.mem_vars_of_rule hr)).imp_right fun ho => ⟨ho, decide_eq_true hv⟩
      apply Yields.of_rule (b := c.collapse)
      · apply mem_rules_retain.2
        constructor
        · exact hkept
        · exact mem_rules_mapRules.2 ⟨r, hr, c, List.mem_singleton.2 (eq_filter_iff.2 hc), rfl⟩
      · exact hh.yields_collapse_iff.2 hw

/-- Variables other than the start that yield the empty word alone can be left out. -/
theorem WellFormed.conservative_vanishing (hg : g.WellFormed) {null : ExtTreeSet String}
    (hvar : ∀ v ∈ null, v ∈ g.others) (hnull : ∀ v ∈ null, ∀ w, g.Yields [v] w ↔ w = []) :
    g.Conservative ((g.mapRules fun _ r => [r.filter (· ∉ null)]).retain (· ∉ null)) := by
  apply (hg.expansion_vanishing hvar hnull).conservative
  intro v hv
  have hkept : v ∉ null := by
    rcases mem_vars_retain.1 hv with rfl | ⟨-, hv⟩
    · exact fun h => hg.ne_start (hvar _ h) rfl
    · exact of_decide_eq_true hv
  refine ⟨mem_vars_of_mem_retain hv, fun x => ?_⟩
  rw [Vanishing, if_neg hkept]

theorem WellFormed.conservative_eliminateNull (hg : g.WellFormed) :
    g.Conservative g.eliminateNull := by
  apply hg.conservative_vanishing
  · intro v hv
    obtain ⟨hne, hv⟩ := mem_erase_iff.1 hv
    have hvar : v ∈ g.vars := hg.mem_vars_of_leastSet (ExtTreeSet.mem_diff_iff.1 hv).1
    exact (mem_vars_iff.1 hvar).resolve_left hne
  · intro v hv w
    exact yields_null_iff hg (mem_erase_iff.1 hv).2

theorem WellFormed.equivalent_eliminateNull (hg : g.WellFormed) : g.Equivalent g.eliminateNull :=
  hg.conservative_eliminateNull.equivalent rfl

/-! ### Variables that pass on another variable -/

theorem delegation?_eq_some (h : g.delegation? = some (v, u)) :
    v ∈ g.vars ∧ (g.rules v).toList = [[u]] ∧ u ∈ g.vars ∧ u ≠ v := by
  obtain ⟨x, hx, h⟩ := List.exists_of_findSome?_eq_some h
  split at h
  · next y hr =>
    split at h
    · next hy =>
      cases h
      simp only [Bool.and_eq_true, isVariable_iff, decide_eq_true_eq] at hy
      exact ⟨hx, soleRule?_eq_some_iff.1 hr, hy⟩
    · cases h
  · cases h

/-- A variable yields what its only rule yields. -/
theorem WellFormed.yields_sole_iff (hg : g.WellFormed) (hv : v ∈ g.vars)
    (hsole : (g.rules v).toList = [b]) : g.Yields [v] w ↔ g.Yields b w := by
  rw [hg.yields_variable_iff hv]
  simp only [← ExtTreeSet.mem_toList, hsole, List.mem_singleton, exists_eq_left]

section Merge

theorem productions_merge : (g.merge v u).productions =
    ((g.mapRules fun _ r => [replace u [v] r]).productions.erase u).insert v
      (((g.mapRules fun _ r => [replace u [v] r]).rules u).filter (· ≠ [v])) := by
  unfold merge
  dsimp only
  split <;> rfl

theorem rules_merge {x : String} : (g.merge v u).rules x =
    if x = v then ((g.mapRules fun _ r => [replace u [v] r]).rules u).filter (· ≠ [v])
    else if x = u then ∅ else (g.mapRules fun _ r => [replace u [v] r]).rules x := by
  rw [rules, productions_merge, ExtTreeMap.getD_insert]
  simp only [LawfulEqCmp.compare_eq_iff_eq, ExtTreeMap.getD_erase, eq_comm (b := x)]
  rfl

theorem mem_rules_merge {x : String} : b ∈ (g.merge v u).rules x ↔
    x = v ∧ b ∈ (g.mapRules fun _ r => [replace u [v] r]).rules u ∧ b ≠ [v] ∨
      x ≠ v ∧ x ≠ u ∧ b ∈ (g.mapRules fun _ r => [replace u [v] r]).rules x := by
  rw [rules_merge]
  split
  · next h => simp [h, ExtTreeSet.mem_filter]
  · next h =>
    split
    · next h' =>
      subst h'
      simp [h]
    · next h' => simp [h, h']

variable (hg : g.WellFormed) (hv : v ∈ g.vars) (hsole : (g.rules v).toList = [[u]])
  (hu : u ∈ g.vars) (hne : u ≠ v)

theorem terminals_merge : (g.merge v u).terminals = g.terminals := by
  unfold merge
  dsimp only
  split <;> rfl

theorem start_merge : (g.merge v u).start = if g.start = u then v else g.start := by
  unfold merge
  dsimp only
  split <;> rfl

include hg

theorem nodup_vars_merge : (g.merge v u).vars.Nodup := by
  obtain ⟨hstart, hothers⟩ := List.nodup_cons.1 hg.nodup
  unfold merge
  dsimp only
  split
  · refine List.nodup_cons.2 ⟨?_, hothers.sublist List.filter_sublist⟩
    simp
  · refine List.nodup_cons.2 ⟨?_, hothers.sublist List.filter_sublist⟩
    exact fun h => hstart (List.mem_filter.1 h).1

include hv hne

theorem mem_vars_merge {x : String} : x ∈ (g.merge v u).vars ↔ x ∈ g.vars ∧ x ≠ u := by
  have hstart : g.start ∉ g.others := (List.nodup_cons.1 hg.nodup).1
  unfold merge
  dsimp only
  split
  · simp only [vars, List.mem_cons, List.mem_filter, decide_eq_true_eq] at hv ⊢
    grind
  · simp only [vars, List.mem_cons, List.mem_filter, decide_eq_true_eq] at hv ⊢
    grind

theorem merge_isSymbol {s : String} (hs : g.IsSymbol s) (h : s ≠ u) :
    (g.merge v u).IsSymbol s := by
  rw [IsSymbol, terminals_merge, mem_vars_merge hg hv hne]
  exact hs.imp_right fun hs => ⟨hs, h⟩

/-- The renamed rules are made of symbols that are left. -/
theorem merge_isRule {x : String} (hb : b ∈ (g.mapRules fun _ r => [replace u [v] r]).rules x) :
    (g.merge v u).IsRule b := by
  obtain ⟨r, hr, c, hc, rfl⟩ := mem_rules_mapRules.1 hb
  rw [List.mem_singleton] at hc
  subst hc
  apply isRule_collapse
  intro s hs
  obtain ⟨a, ha, hs⟩ := List.mem_flatMap.1 hs
  by_cases hau : a = u
  · rw [if_pos hau, List.mem_singleton] at hs
    exact .inr (merge_isSymbol hg hv hne (.inr (hs ▸ hv)) (hs ▸ hne.symm))
  · rw [if_neg hau, List.mem_singleton] at hs
    subst hs
    exact (hg.symbol_of_mem hr ha).imp_right fun hs => merge_isSymbol hg hv hne hs hau

theorem merge_wellFormed : (g.merge v u).WellFormed := by
  have hmem := fun x => mem_vars_merge hg hv hne (x := x)
  apply hg.of_subset terminals_merge (nodup_vars_merge hg) fun x hx => ((hmem x).1 hx).1
  · intro x hx
    rw [productions_merge, ExtTreeMap.mem_insert, ExtTreeMap.mem_erase] at hx
    simp only [LawfulEqCmp.compare_eq_iff_eq, ne_eq] at hx
    rcases hx with rfl | ⟨hxu, hx⟩
    · exact (hmem _).2 ⟨hv, hne.symm⟩
    · refine (hmem x).2 ⟨hg.entry_mem x ?_, fun e => hxu e.symm⟩
      simpa [mapRules] using hx
  · intro x b hb
    rcases mem_rules_merge.1 hb with ⟨-, hb, -⟩ | ⟨-, -, hb⟩
    · exact merge_isRule hg hv hne hb
    · exact merge_isRule hg hv hne hb

include hsole

omit hne in
/-- The variable that takes the place yields as much as the one that goes. -/
theorem yields_of_merged {s : String} {x : Rule} (hx : Rule.Instead u [[v]] s x)
    (hw : g.Yields x w) : g.Yields [s] w := by
  by_cases hs : s = u
  · rw [hs, Rule.instead_self, List.mem_singleton] at hx
    rw [hs, ← hg.yields_sole_iff hv hsole]
    exact hx ▸ hw
  · rw [Rule.instead_iff_of_ne hs] at hx
    exact hx ▸ hw

include hu

theorem expansion_merge : Expansion (Rule.Instead u [[v]]) g (g.merge v u) := by
  have hh := merge_wellFormed hg hv hne
  have hyields := fun w => hg.yields_sole_iff hv hsole (w := w)
  have hf : ∀ (x : String) (r c : Rule), c ∈ [replace u [v] r] →
      r.Expands (Rule.Instead u [[v]]) c :=
    fun x r c hc => Rule.eq_replace_iff.1 (List.mem_singleton.1 hc)
  have hsymbol : ∀ s x w, Rule.Instead u [[v]] s x → g.Yields x w → g.Yields [s] w :=
    fun s x w => yields_of_merged hg hv hsole
  apply Expansion.mk hh terminals_merge
  · intro t ht
    exact (Rule.instead_iff_of_ne (hg.ne_variable ht hu)).2 rfl
  · exact hsymbol
  · intro x b hb w hw
    rcases mem_rules_merge.1 hb with ⟨rfl, hb, -⟩ | ⟨-, -, hb⟩
    · exact (hyields w).2 (hg.yields_of_mapRules hf hsymbol hb hw)
    · exact hg.yields_of_mapRules hf hsymbol hb hw
  · intro x r hr c w _ hc hw
    have hb : ∀ y, r ∈ g.rules y →
        c.collapse ∈ (g.mapRules fun _ r => [replace u [v] r]).rules y :=
      fun y hr => mem_rules_mapRules.2
        ⟨r, hr, c, List.mem_singleton.2 (Rule.eq_replace_iff.2 hc), rfl⟩
    have hw' := hh.yields_collapse_iff.2 hw
    by_cases hxu : x = u
    · refine ⟨[v], hxu ▸ Rule.instead_self.2 (List.mem_singleton_self _), ?_⟩
      by_cases hself : c.collapse = [v]
      · exact hself ▸ hw'
      · exact .of_rule (mem_rules_merge.2 (.inl ⟨rfl, hb u (hxu ▸ hr), hself⟩)) hw'
    · refine ⟨[x], (Rule.instead_iff_of_ne hxu).2 rfl, ?_⟩
      by_cases hxv : x = v
      · rw [hxv, ← ExtTreeSet.mem_toList, hsole, List.mem_singleton] at hr
        rw [hr, Rule.expands_singleton_iff, Rule.instead_self, List.mem_singleton] at hc
        rw [hxv, ← hc]
        exact hw
      · exact .of_rule (mem_rules_merge.2 (.inr ⟨hxv, hxu, hb x hr⟩)) hw'

theorem equivalent_merge : g.Equivalent (g.merge v u) := by
  apply (expansion_merge hg hv hsole hu hne).equivalent
  intro x
  rw [start_merge]
  by_cases hs : g.start = u
  · rw [if_pos hs, hs, Rule.instead_self, List.mem_singleton]
  · rw [if_neg hs, Rule.instead_iff_of_ne hs]

/-- The variables that are left are not replaced. -/
theorem conservative_merge : g.Conservative (g.merge v u) := by
  apply (expansion_merge hg hv hsole hu hne).conservative
  intro x hx
  obtain ⟨hx, hxu⟩ := (mem_vars_merge hg hv hne).1 hx
  exact ⟨hx, fun _ => Rule.instead_iff_of_ne hxu⟩

end Merge

theorem WellFormed.equivalent_eliminateDelegating (hg : g.WellFormed) :
    g.Equivalent g.eliminateDelegating := by
  refine exhaust_induction (P := g.Equivalent) ?_ _ (.refl hg)
  intro k k' hk hstep
  obtain ⟨⟨v, u⟩, hdelegation, rfl⟩ := Option.map_eq_some_iff.1 hstep
  obtain ⟨hv, hsole, hu, hne⟩ := delegation?_eq_some hdelegation
  exact hk.trans (equivalent_merge hk.wellFormed hv hsole hu hne)

/-! ### Variables that only double themselves or vanish -/

def trivialStar (v : String) : RuleSet := .ofList [[v, v], Rule.epsilon]

theorem mem_trivialStar : b ∈ trivialStar v ↔ b = [v, v] ∨ b = Rule.epsilon := by
  simp [trivialStar, ExtTreeSet.mem_ofList]

theorem mem_singleton_epsilon : b ∈ ({Rule.epsilon} : RuleSet) ↔ b = Rule.epsilon := by
  show b ∈ (∅ : RuleSet).insert Rule.epsilon ↔ _
  rw [mem_insert_iff]
  exact or_iff_left ExtTreeSet.not_mem_empty

theorem rules_collapseTrivialStar : g.collapseTrivialStar.rules v =
    if g.rules v = trivialStar v then {Rule.epsilon} else g.rules v := by
  have hempty : (∅ : RuleSet) ≠ trivialStar v := by
    intro h
    have hε : Rule.epsilon ∈ trivialStar v := mem_trivialStar.2 (.inr rfl)
    rw [← h] at hε
    exact ExtTreeSet.not_mem_empty hε
  simp only [rules, collapseTrivialStar, ExtTreeMap.getD_eq_getD_getElem?, ExtTreeMap.getElem?_map]
  cases g.productions[v]? with
  | none => simp [hempty]
  | some rs => rfl

theorem WellFormed.equivalent_collapseTrivialStar (hg : g.WellFormed) :
    g.Equivalent g.collapseTrivialStar := by
  have hsub : ∀ v, ∀ b ∈ g.collapseTrivialStar.rules v, b ∈ g.rules v := by
    intro v b hb
    rw [rules_collapseTrivialStar] at hb
    split at hb
    · next h =>
      rw [h, mem_trivialStar]
      exact .inr (mem_singleton_epsilon.1 hb)
    · exact hb
  have hh : g.collapseTrivialStar.WellFormed := by
    apply hg.of_rules (h := g.collapseTrivialStar) rfl rfl
    · intro v hv
      apply hg.entry_mem
      simpa [collapseTrivialStar] using hv
    · exact fun v r hr => hg.isRule (hsub v r hr)
  apply Equivalent.of_subset (g := g) hh rfl rfl hsub
  intro v b hb w _ hw
  have hrules := rules_collapseTrivialStar (g := g) (v := v)
  split at hrules
  · next h =>
    have hε : Rule.epsilon ∈ g.collapseTrivialStar.rules v :=
      hrules ▸ mem_singleton_epsilon.2 rfl
    have hempty : ∀ x, g.collapseTrivialStar.Yields [v] x → x = [] := by
      intro x hx
      rw [hh.yields_variable_iff (hg.mem_vars_of_rule hb), hrules] at hx
      obtain ⟨c, hc, hx⟩ := hx
      rwa [mem_singleton_epsilon.1 hc, hh.yields_epsilon_iff] at hx
    rw [h, mem_trivialStar] at hb
    rcases hb with rfl | rfl
    · obtain ⟨x, y, rfl, hx, hy⟩ := hw.exists_of_cons
      rw [hempty x hx, hempty y hy]
      exact .of_rule hε (.epsilon .nil)
    · exact .of_rule hε hw
  · exact .of_rule (hrules ▸ hb) hw

/-! ### The rounds together -/

theorem WellFormed.equivalent_inlineOnce (hg : g.WellFormed) : g.Equivalent g.inlineOnce := by
  have h₁ := hg.equivalent_eliminateDelegating
  have h₂ := h₁.wellFormed.equivalent_eliminateSingleRule
  have h₃ := h₂.wellFormed.equivalent_eliminateNull
  have h₄ := h₃.wellFormed.equivalent_trim
  exact h₁.trans (h₂.trans (h₃.trans h₄))

theorem WellFormed.equivalent_simplify (hg : g.WellFormed) : g.Equivalent g.simplify := by
  have h₁ := hg.equivalent_trim
  have h₂ := h₁.wellFormed.equivalent_inlineOnce
  have h₃ := h₂.wellFormed.equivalent_inlineOnce
  exact h₁.trans (h₂.trans h₃)

end Grammar

end FormalLanguages
