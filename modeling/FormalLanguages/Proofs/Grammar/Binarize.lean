import FormalLanguages.Grammar.Chomsky
import FormalLanguages.Proofs.Grammar.Trim

/-!
# Cutting long rules

A variable made for the end of a rule has one rule, which is this end, itself cut. While a variable
waits for its rule, it is known by a name that no other variable gets: the names given meanwhile
have the same base and greater numbers.
-/

namespace FormalLanguages.Grammar

open Std

variable {g : Grammar} {b c r : Rule} {s s' : Cutting} {owner x v : String} {w : List String}

/-- `b` is `r`, or its first symbol followed by the variable for the rest. -/
def Cut (tails : ExtTreeMap (List String) String) (r b : Rule) : Prop :=
  r.length ≤ 2 ∧ b = r ∨
    ∃ a tail x, r = a :: tail ∧ 2 ≤ tail.length ∧ tails[tail]? = some x ∧ b = [a, x]

def IsLongSymbol (g : Grammar) (a : String) : Prop := g.IsSymbol a ∧ a ∈ g.longRuleSymbols

namespace Cutting

/-- What holds at any time. Some variables are known by name and wait for their rules. -/
structure From (g : Grammar) (owner : String) (pending : List String) (s : Cutting) : Prop where
  wellFormed : s.grammar.WellFormed
  terminals : s.grammar.terminals = g.terminals
  start : s.grammar.start = g.start
  vars : ∀ v ∈ g.vars, v ∈ s.grammar.vars
  owner_mem : owner ∈ g.vars
  named : ∀ (t : List String) x, s.tails[t]? = some x → ∃ u ∈ g.vars, ∃ n, x = numbered u n
  new : ∀ v ∈ s.grammar.vars, v ∈ g.vars ∨ ∃ t : List String, s.tails[t]? = some v
  tail : ∀ (t : List String) x, s.tails[t]? = some x →
    x ∉ g.vars ∧ x ∉ g.terminals ∧ x ≠ epsilonSymbol ∧ 2 ≤ t.length ∧ ∀ a ∈ t, g.IsLongSymbol a
  injective : ∀ (t t' : List String) x, s.tails[t]? = some x → s.tails[t']? = some x → t = t'
  made : ∀ (t : List String) x, s.tails[t]? = some x → x ∈ pending ∨
    x ∈ s.grammar.vars ∧ ∃ b, Cut s.tails t b ∧ ∀ c, c ∈ s.grammar.rules x ↔ c = b
  pending : ∀ x ∈ pending, s.grammar.rules x = ∅ ∧ ∃ k ≤ s.counter, x = numbered owner k

/-- Later on there may be more variables for ends of rules. -/
structure Extends (g : Grammar) (s s' : Cutting) : Prop where
  tails : ∀ (t : List String) x, s.tails[t]? = some x → s'.tails[t]? = some x
  rules : ∀ v ∈ g.vars, s'.grammar.rules v = s.grammar.rules v
  counter : s.counter ≤ s'.counter

theorem Extends.refl (g : Grammar) (s : Cutting) : Extends g s s :=
  ⟨fun _ _ h => h, fun _ _ => rfl, Nat.le_refl _⟩

theorem Extends.trans {s₁ s₂ s₃ : Cutting} (h : Extends g s₁ s₂) (h' : Extends g s₂ s₃) :
    Extends g s₁ s₃ :=
  ⟨fun t x hx => h'.tails t x (h.tails t x hx),
    fun v hv => (h'.rules v hv).trans (h.rules v hv), Nat.le_trans h.counter h'.counter⟩

theorem Extends.cut (h : Extends g s s') (hb : Cut s.tails r b) : Cut s'.tails r b := by
  rcases hb with hb | ⟨a, tail, x, hr, hlen, hx, hb⟩
  · exact .inl hb
  · exact .inr ⟨a, tail, x, hr, hlen, h.tails tail x hx, hb⟩

/-- A rule that is cut consists of symbols and of variables for ends of rules. -/
theorem symbol_of_cut {tails : ExtTreeMap (List String) String} (hb : Cut tails r b)
    (hr : ∀ a ∈ r, g.IsSymbol a) :
    ∀ a ∈ b, g.IsSymbol a ∨ ∃ t : List String, tails[t]? = some a := by
  intro a ha
  rcases hb with ⟨-, rfl⟩ | ⟨a', tail, x, rfl, -, hx, rfl⟩
  · exact .inl (hr a ha)
  · simp only [List.mem_cons, List.not_mem_nil, or_false] at ha
    rcases ha with rfl | rfl
    · exact .inl (hr a (List.mem_cons_self ..))
    · exact .inr ⟨tail, hx⟩

theorem ne_nil_of_cut {tails : ExtTreeMap (List String) String} (hb : Cut tails r b)
    (hr : r ≠ []) : b ≠ [] := by
  rcases hb with ⟨-, rfl⟩ | ⟨a, tail, x, -, -, -, rfl⟩
  · exact hr
  · exact List.cons_ne_nil _ _

/-! ### A new variable -/

section Variable

variable {pending : List String} {t : List String}

theorem From.numbered_not_mem {n : Nat} (h : From g owner pending s) (hn : s.counter < n) :
    numbered owner n ∉ pending := by
  intro hx
  obtain ⟨-, k, hk, hxk⟩ := h.pending _ hx
  have hnk := numbered_injective owner _ _ hxk
  omega

/-- What is neither a variable nor waiting stands for no end of a rule. -/
theorem From.tails_ne (h : From g owner pending s) (hx : x ∉ s.grammar.vars)
    (hpending : x ∉ pending) (t : List String) : s.tails[t]? ≠ some x := by
  intro ht
  rcases h.made t x ht with hwait | ⟨hvar, -⟩
  · exact hpending hwait
  · exact hx hvar

/-- A variable gets a name and waits for its rule. -/
theorem From.await {n : Nat} (h : From g owner pending s) (ht : s.tails[t]? = none)
    (hlen : 2 ≤ t.length) (hsym : ∀ a ∈ t, g.IsLongSymbol a) (hn : s.counter < n)
    (hfree : numbered owner n ∉ s.grammar.taken) :
    From g owner (numbered owner n :: pending)
      { s with counter := n, tails := s.tails.insert t (numbered owner n) } ∧
    Extends g s { s with counter := n, tails := s.tails.insert t (numbered owner n) } ∧
    numbered owner n ∉ pending := by
  simp only [taken, List.mem_append, ExtTreeSet.mem_toList, not_or] at hfree
  have htails : ∀ (t' : List String) x, (s.tails.insert t (numbered owner n))[t']? = some x ↔
      t' = t ∧ x = numbered owner n ∨ s.tails[t']? = some x :=
    fun t' x => getElem?_insert_eq_some_iff ht
  have hpending := h.numbered_not_mem hn
  have hother := h.tails_ne hfree.1 hpending
  have hext : Extends g s { s with counter := n, tails := s.tails.insert t (numbered owner n) } :=
    ⟨fun t' x hx => (htails t' x).2 (.inr hx), fun v _ => rfl, Nat.le_of_lt hn⟩
  refine ⟨{ h with
    named := ?named
    new := ?new
    tail := ?tail
    injective := ?injective
    made := ?made
    pending := ?pending }, hext, hpending⟩
  case named =>
    intro t' x hx
    rcases (htails t' x).1 hx with ⟨-, rfl⟩ | hx
    · exact ⟨owner, h.owner_mem, n, rfl⟩
    · exact h.named t' x hx
  case new =>
    intro v hv
    exact (h.new v hv).imp_right (Exists.imp fun t' => hext.tails t' v)
  case tail =>
    intro t' x hx
    rcases (htails t' x).1 hx with ⟨rfl, rfl⟩ | hx
    · exact ⟨fun hv => hfree.1 (h.vars _ hv), fun hv => hfree.2 (h.terminals ▸ hv),
        numbered_ne_epsilon owner n, hlen, hsym⟩
    · exact h.tail t' x hx
  case injective =>
    intro t₁ t₂ x h₁ h₂
    rcases (htails t₁ x).1 h₁ with ⟨rfl, rfl⟩ | k₁
    · rcases (htails t₂ _).1 h₂ with ⟨rfl, -⟩ | k₂
      · rfl
      · exact absurd k₂ (hother t₂)
    · rcases (htails t₂ x).1 h₂ with ⟨rfl, rfl⟩ | k₂
      · exact absurd k₁ (hother t₁)
      · exact h.injective t₁ t₂ x k₁ k₂
  case made =>
    intro t' x hx
    rcases (htails t' x).1 hx with ⟨rfl, rfl⟩ | hx
    · exact .inl (List.mem_cons_self ..)
    · rcases h.made t' x hx with hx | ⟨hx, b, hb, hrules⟩
      · exact .inl (List.mem_cons_of_mem _ hx)
      · exact .inr ⟨hx, b, hext.cut hb, hrules⟩
  case pending =>
    intro x hx
    rcases List.mem_cons.1 hx with rfl | hx
    · exact ⟨h.wellFormed.rules_eq_empty hfree.1, n, Nat.le_refl n, rfl⟩
    · obtain ⟨hrules, k, hk, hxk⟩ := h.pending x hx
      exact ⟨hrules, k, Nat.le_trans hk (Nat.le_of_lt hn), hxk⟩

theorem From.collapse_of_cut (h : From g owner pending s) (hb : Cut s.tails t b) (ht : t ≠ [])
    (hsym : ∀ a ∈ t, g.IsSymbol a) : b.collapse = b := by
  apply Rule.collapse_eq_self (ne_nil_of_cut hb ht)
  intro hε
  rcases symbol_of_cut hb hsym _ hε with (hε | hε) | ⟨t', ht'⟩
  · exact h.wellFormed.epsilon_not_terminal (h.terminals ▸ hε)
  · exact h.wellFormed.epsilon_not_variable (h.vars _ hε)
  · exact (h.tail t' _ ht').2.2.1 rfl

/-- The variable that has waited longest last gets its rule. -/
theorem From.addRule (h : From g owner (x :: pending) s) (hx : s.tails[t]? = some x)
    (hb : Cut s.tails t b) (hpending : x ∉ pending) :
    From g owner pending { s with grammar := s.grammar.addRule x b } ∧
      Extends g s { s with grammar := s.grammar.addRule x b } := by
  obtain ⟨hxv, hxt, hxε, hlen, hlong⟩ := h.tail t x hx
  have hsym : ∀ a ∈ t, g.IsSymbol a := fun a ha => (hlong a ha).1
  have hcollapse := h.collapse_of_cut hb (List.ne_nil_of_length_pos (by omega)) hsym
  have hself : ∀ c, c ∈ (s.grammar.addRule x b).rules x ↔ c = b := by
    intro c
    rw [mem_rules_addRule_self (h.pending x (List.mem_cons_self ..)).1, hcollapse]
  have hother : ∀ v ≠ x, (s.grammar.addRule x b).rules v = s.grammar.rules v :=
    fun v hv => rules_addRule_of_ne hv b
  have hext : Extends g s { s with grammar := s.grammar.addRule x b } :=
    ⟨fun _ _ h => h, fun v hv => hother v fun e => hxv (e ▸ hv), Nat.le_refl _⟩
  have hwellFormed := h.wellFormed.addRule (r := b) (h.terminals ▸ hxt) hxε
  have hvars : ∀ v ∈ g.vars, v ∈ (s.grammar.addRule x b).vars :=
    fun v hv => mem_vars_addRule.2 (.inr (.inl (h.vars v hv)))
  refine ⟨{ h with
    wellFormed := hwellFormed
    terminals := (terminals_addRule _ _ _).trans h.terminals
    start := (start_addRule _ _ _).trans h.start
    vars := hvars
    new := ?new
    made := ?made
    pending := ?pending }, hext⟩
  case new =>
    intro v hv
    rcases mem_vars_addRule.1 hv with rfl | hv | ⟨hv, -, hvt⟩
    · exact .inr ⟨t, hx⟩
    · exact h.new v hv
    · rw [hcollapse] at hv
      rcases symbol_of_cut hb hsym v hv with (hv | hv) | hv
      · exact absurd (h.terminals ▸ hv) hvt
      · exact .inl hv
      · exact .inr hv
  case made =>
    intro t' y hy
    by_cases hyx : y = x
    · subst hyx
      obtain rfl := h.injective t t' y hx hy
      exact .inr ⟨mem_vars_addRule.2 (.inl rfl), b, hb, hself⟩
    · rcases h.made t' y hy with hmem | ⟨hvar, c, hc, hrules⟩
      · exact .inl ((List.mem_cons.1 hmem).resolve_left hyx)
      · exact .inr ⟨mem_vars_addRule.2 (.inr (.inl hvar)), c, hc, (hother y hyx) ▸ hrules⟩
  case pending =>
    intro q hq
    rw [hother q fun e => hpending (e ▸ hq)]
    exact h.pending q (List.mem_cons_of_mem x hq)

end Variable

/-! ### Cutting rules -/

theorem From.cutRule {pending : List String} (h : From g owner pending s)
    (hr : 2 < r.length → ∀ a ∈ r, g.IsLongSymbol a) :
    From g owner pending (cutRule owner r s).2 ∧ Extends g s (cutRule owner r s).2 ∧
      Cut (Grammar.cutRule owner r s).2.tails r (Grammar.cutRule owner r s).1 := by
  fun_induction Grammar.cutRule owner r s generalizing pending with
  | case1 a b c rest s tail x =>
    rename_i hx
    exact ⟨h, .refl g s, .inr ⟨a, tail, x, rfl, by simp [tail], hx, rfl⟩⟩
  | case2 a b c rest s tail hnone x s₁ hname r s₂ hcut =>
    rename_i ih
    have hlen : 2 ≤ tail.length := by simp [tail]
    have hsym : ∀ y ∈ tail, g.IsLongSymbol y :=
      fun y hy => hr (by simp) y (List.mem_cons_of_mem a hy)
    obtain ⟨h₁, hext₁, hpending⟩ := h.await hnone hlen hsym le_firstFree
      (firstFree_not_mem (numbered_injective owner))
    cases hname
    obtain ⟨h₂, hext₂, hcut'⟩ := ih h₁ fun _ => hsym
    rw [hcut] at h₂ hext₂ hcut'
    have hx := hext₂.tails tail _ ExtTreeMap.getElem?_insert_self
    obtain ⟨h₃, hext₃⟩ := h₂.addRule hx hcut' hpending
    exact ⟨h₃, hext₁.trans (hext₂.trans hext₃), .inr ⟨a, tail, _, rfl, hlen, hx, rfl⟩⟩
  | case3 r s hshort =>
    refine ⟨h, .refl g s, .inl ⟨?_, rfl⟩⟩
    match r with
    | [] => simp
    | [a] => simp
    | [a, b] => simp
    | a :: b :: c :: rest => exact absurd rfl (hshort a b c rest)

/-- Whether the rules of a variable are those that it had, each of them cut. -/
structure Done (g : Grammar) (s : Cutting) (v : String) : Prop where
  complete : ∀ r ∈ g.rules v, ∃ b ∈ s.grammar.rules v, Cut s.tails r b
  sound : ∀ b ∈ s.grammar.rules v, ∃ r ∈ g.rules v, Cut s.tails r b

theorem From.cutRules {rs : List Rule} (h : From g owner [] s)
    (hrs : ∀ r ∈ rs, 2 < r.length → ∀ a ∈ r, g.IsLongSymbol a) :
    From g owner [] (cutRules owner rs s).2 ∧ Extends g s (Grammar.cutRules owner rs s).2 ∧
      (∀ r ∈ rs, ∃ b ∈ (Grammar.cutRules owner rs s).1,
        Cut (Grammar.cutRules owner rs s).2.tails r b) ∧
      ∀ b ∈ (Grammar.cutRules owner rs s).1, ∃ r ∈ rs,
        Cut (Grammar.cutRules owner rs s).2.tails r b := by
  induction rs generalizing s with
  | nil => exact ⟨h, .refl g s, by simp, by simp [Grammar.cutRules]⟩
  | cons r rs ih =>
    obtain ⟨h₁, hext₁, hr⟩ := h.cutRule (hrs r (List.mem_cons_self ..))
    obtain ⟨h₂, hext₂, hcomplete, hsound⟩ := ih h₁ fun r hr => hrs r (List.mem_cons_of_mem _ hr)
    refine ⟨h₂, hext₁.trans hext₂, ?_, ?_⟩
    · intro r' hr'
      rcases List.mem_cons.1 hr' with rfl | hr'
      · exact ⟨_, List.mem_cons_self .., hext₂.cut hr⟩
      · obtain ⟨b, hb, hcut⟩ := hcomplete r' hr'
        exact ⟨b, List.mem_cons_of_mem _ hb, hcut⟩
    · intro b hb
      rcases List.mem_cons.1 hb with rfl | hb
      · exact ⟨r, List.mem_cons_self .., hext₂.cut hr⟩
      · obtain ⟨r', hr', hcut⟩ := hsound b hb
        exact ⟨r', List.mem_cons_of_mem _ hr', hcut⟩

/-- When no variable waits, the numbers in the names can begin anew. -/
theorem From.restart (h : From g owner [] s) {owner' : String} (howner : owner' ∈ g.vars)
    (n : Nat) : From g owner' [] { s with counter := n } :=
  { h with
    owner_mem := howner
    pending := fun _ hx => absurd hx List.not_mem_nil }

theorem Extends.done (hext : Extends g s s') (hv : v ∈ g.vars) (h : Done g s v) :
    Done g s' v := by
  constructor
  · intro r hr
    obtain ⟨b, hb, hcut⟩ := h.complete r hr
    exact ⟨b, hext.rules v hv ▸ hb, hext.cut hcut⟩
  · intro b hb
    rw [hext.rules v hv] at hb
    obtain ⟨r, hr, hcut⟩ := h.sound b hb
    exact ⟨r, hr, hext.cut hcut⟩

theorem From.isSymbol {a : String} (h : From g owner [] s) (ha : g.IsSymbol a) :
    s.grammar.IsSymbol a :=
  ha.imp (fun ht => h.terminals ▸ ht) (h.vars a)

theorem From.mem_vars {t : List String} (h : From g owner [] s) (hx : s.tails[t]? = some x) :
    x ∈ s.grammar.vars :=
  ((h.made t x hx).resolve_left List.not_mem_nil).1

theorem From.isRule_of_cut (hg : g.WellFormed) (h : From g owner [] s) (hr : r ∈ g.rules v)
    (hb : Cut s.tails r b) : s.grammar.IsRule b := by
  rcases hb with ⟨-, rfl⟩ | ⟨a, tail, x, rfl, hlen, hx, rfl⟩
  · exact (hg.isRule hr).imp fun a _ hsym => h.isSymbol hsym
  · refine .inr ⟨List.cons_ne_nil _ _, fun y hy => ?_⟩
    have hne : a :: tail ≠ Rule.epsilon := by
      intro e
      simp [Rule.epsilon] at e
      simp [e.2] at hlen
    simp only [List.mem_cons, List.not_mem_nil, or_false] at hy
    rcases hy with rfl | rfl
    · exact h.isSymbol (((hg.isRule hr).resolve_left hne).2 y (List.mem_cons_self ..))
    · exact .inr (h.mem_vars hx)

/-- A variable of the grammar gets its rules back, each of them cut. -/
theorem From.setRules (hg : g.WellFormed) (h : From g owner [] s) (hv : v ∈ g.vars) {bs : List Rule}
    (hbs : ∀ b ∈ bs, ∃ r ∈ g.rules v, Cut s.tails r b) :
    From g owner [] { s with grammar := s.grammar.setRules v (.ofList bs) } := by
  have hother : ∀ u ≠ v, (s.grammar.setRules v (.ofList bs)).rules u = s.grammar.rules u := by
    intro u hu
    rw [rules_setRules, if_neg hu]
  refine { h with
    wellFormed := h.wellFormed.setRules (h.vars v hv) ?rules
    made := ?made
    pending := fun x hx => absurd hx List.not_mem_nil }
  case rules =>
    intro b hb
    obtain ⟨r, hr, hcut⟩ := hbs b (by simpa using hb)
    exact h.isRule_of_cut hg hr hcut
  case made =>
    intro t x hx
    have hne : x ≠ v := fun e => (h.tail t x hx).1 (e ▸ hv)
    rcases h.made t x hx with hx | ⟨hx, b, hb, hrules⟩
    · exact .inl hx
    · exact .inr ⟨hx, b, hb, hother x hne ▸ hrules⟩

theorem From.cutVariable (hg : g.WellFormed) (h : From g owner [] s) (hv : v ∈ g.vars) :
    From g v [] (g.cutVariable s v) ∧
      ∀ u ∈ g.vars, u = v ∨ Done g s u → Done g (g.cutVariable s v) u := by
  have hrs : ∀ r ∈ (g.rules v).toList, 2 < r.length → ∀ a ∈ r, g.IsLongSymbol a := by
    intro r hr hlen a ha
    have hr := ExtTreeSet.mem_toList.1 hr
    rcases hg.isRule hr with rfl | ⟨-, hsym⟩
    · simp [Rule.epsilon] at hlen
    · exact ⟨hsym a ha, mem_longRuleSymbols.2 ⟨v, r, hr, by omega, ha⟩⟩
  obtain ⟨h₁, hext, hcomplete, hsound⟩ := (h.restart hv 0).cutRules hrs
  unfold Grammar.cutVariable
  dsimp only
  generalize Grammar.cutRules v (g.rules v).toList { s with counter := 0 } = p at *
  simp only [ExtTreeSet.mem_toList] at hcomplete hsound
  refine ⟨h₁.setRules hg hv hsound, fun u hu hdone => ?_⟩
  by_cases huv : u = v
  · have hrules : ∀ b, b ∈ (p.2.grammar.setRules v (.ofList p.1)).rules u ↔ b ∈ p.1 := by
      intro b
      rw [rules_setRules, if_pos huv]
      simp
    subst huv
    simp only [← hrules] at hcomplete hsound
    exact ⟨hcomplete, hsound⟩
  · have hrules : (p.2.grammar.setRules v (.ofList p.1)).rules u = p.2.grammar.rules u := by
      rw [rules_setRules, if_neg huv]
    have hdone := hdone.resolve_left huv
    have hdone := hext.done hu ⟨hdone.complete, hdone.sound⟩
    exact ⟨hrules ▸ hdone.complete, hrules ▸ hdone.sound⟩

theorem From.foldl_cutVariable (hg : g.WellFormed) (h : From g owner [] s) {vs : List String}
    (hvs : ∀ v ∈ vs, v ∈ g.vars) : (∃ owner, From g owner [] (vs.foldl g.cutVariable s)) ∧
      ∀ u ∈ g.vars, u ∈ vs ∨ Done g s u → Done g (vs.foldl g.cutVariable s) u := by
  induction vs generalizing s owner with
  | nil => exact ⟨⟨owner, h⟩, fun u _ hu => hu.resolve_left List.not_mem_nil⟩
  | cons v vs ih =>
    obtain ⟨h₁, hdone⟩ := h.cutVariable hg (hvs v (List.mem_cons_self ..))
    obtain ⟨h₂, hdone₂⟩ := ih h₁ fun u hu => hvs u (List.mem_cons_of_mem v hu)
    refine ⟨h₂, fun u hu h => hdone₂ u hu ?_⟩
    rcases h with h | h
    · exact (List.mem_cons.1 h).symm.imp_right fun e => hdone u hu (.inl e)
    · exact .inr (hdone u hu (.inr h))

theorem init (hg : g.WellFormed) (howner : owner ∈ g.vars) :
    From g owner [] { grammar := g } := by
  refine ⟨hg, rfl, rfl, fun _ hv => hv, howner, ?_, fun v hv => .inl hv, ?_, ?_, ?_, ?_⟩ <;> simp

theorem from_cutting (hg : g.WellFormed) : ∃ owner, From g owner [] g.cutting ∧
    ∀ v ∈ g.vars, Done g g.cutting v := by
  have hinit : From g g.start [] { grammar := g } := init hg (start_mem_vars g)
  obtain ⟨⟨owner, h⟩, hdone⟩ := hinit.foldl_cutVariable hg fun v hv => hv
  exact ⟨owner, h, fun v hv => hdone v hv (.inl hv)⟩

/-! ### The language -/

/-- A rule that is cut yields no less if the variables for its ends do not. -/
theorem yields_of_cut
    (htail : ∀ (t : List String) x, t.length < r.length → s.tails[t]? = some x → ∀ u,
      s.grammar.Yields t u → s.grammar.Yields [x] u)
    (hb : Cut s.tails r b) (hw : s.grammar.Yields r w) : s.grammar.Yields b w := by
  rcases hb with ⟨-, rfl⟩ | ⟨a, tail, x, rfl, -, hx, rfl⟩
  · exact hw
  · obtain ⟨y, z, rfl, hy, hz⟩ := hw.exists_of_cons
    exact hy.append (htail tail x (by simp) hx z hz)

section Language

variable (hg : g.WellFormed) (h : From g owner [] s) (hdone : ∀ v ∈ g.vars, Done g s v)

/-- The variable for an end of a rule stands for this end, other symbols for themselves. -/
def Ends (s : Cutting) (a : String) (y : Rule) : Prop :=
  s.tails[y]? = some a ∨ y = [a] ∧ ∀ t : List String, s.tails[t]? ≠ some a

include h

theorem From.ends_iff {a : String} {y : Rule} (ha : a = epsilonSymbol ∨ g.IsSymbol a) :
    Ends s a y ↔ y = [a] := by
  have hnot : ∀ t : List String, s.tails[t]? ≠ some a := by
    intro t ht
    obtain ⟨hv, hterm, hε, -⟩ := h.tail t a ht
    rcases ha with ha | ha | ha
    · exact hε ha
    · exact hterm ha
    · exact hv ha
  simp [Ends, hnot]

theorem From.expands_ends_iff (hr : ∀ a ∈ r, a = epsilonSymbol ∨ g.IsSymbol a) :
    r.Expands (Ends s) c ↔ c = r := by
  rw [Rule.expands_congr (τ := fun a y => y = [a]) fun a ha y => h.ends_iff (hr a ha),
    Rule.expands_self_iff]

/-- Putting the ends back gives the rule that was cut. -/
theorem From.eq_of_cut (hr : ∀ a ∈ r, a = epsilonSymbol ∨ g.IsSymbol a) (hb : Cut s.tails r b)
    (hc : b.Expands (Ends s) c) : c = r := by
  rcases hb with ⟨-, rfl⟩ | ⟨a, tail, x, rfl, -, hx, rfl⟩
  · exact (h.expands_ends_iff hr).1 hc
  · obtain ⟨y, z, hy, hz, rfl⟩ := Rule.expands_cons_iff.1 hc
    rw [h.ends_iff (hr a (List.mem_cons_self ..))] at hy
    rw [Rule.expands_singleton_iff] at hz
    rcases hz with hz | ⟨-, hz⟩
    · rw [hy, h.injective z tail x hz hx]
      rfl
    · exact absurd hx (hz tail)

include hg hdone

theorem From.exists_yields (hw : s.grammar.Yields r w) :
    ∃ c, r.Expands (Ends s) c ∧ g.Yields c w := by
  apply hw.exists_expands
  · exact ⟨_, (h.ends_iff (.inl rfl)).2 rfl, .epsilon .nil⟩
  · intro t ht
    have ht : t ∈ g.terminals := h.terminals ▸ ht
    exact ⟨_, (h.ends_iff (.inr (.inl ht))).2 rfl, .terminal ht .nil⟩
  · rintro v b hb u - ⟨c, hc, hu⟩
    rcases h.new v (h.wellFormed.mem_vars_of_rule hb) with hv | ⟨t, ht⟩
    · obtain ⟨r, hr, hcut⟩ := (hdone v hv).sound b hb
      have hcr := h.eq_of_cut (fun a ha => hg.symbol_of_mem hr ha) hcut hc
      exact ⟨[v], (h.ends_iff (.inr (.inr hv))).2 rfl, .of_rule hr (hcr ▸ hu)⟩
    · obtain ⟨-, d, hcut, hrules⟩ := (h.made t v ht).resolve_left List.not_mem_nil
      rw [hrules] at hb
      have hct := h.eq_of_cut (fun a ha => .inr ((h.tail t v ht).2.2.2.2 a ha).1) hcut (hb ▸ hc)
      exact ⟨t, .inl ht, hct ▸ hu⟩

omit hg hdone in
theorem From.yields_tail (t : List String) (hx : s.tails[t]? = some x)
    (hw : s.grammar.Yields t w) : s.grammar.Yields [x] w := by
  induction hn : t.length using Nat.strongRecOn generalizing t x w with
  | _ n ih =>
    obtain ⟨-, b, hcut, hrules⟩ := (h.made t x hx).resolve_left List.not_mem_nil
    apply Yields.of_rule ((hrules b).2 rfl)
    exact yields_of_cut (fun t' x' hlt hx' u hu => ih t'.length (hn ▸ hlt) t' hx' hu rfl) hcut hw

/-- What is made of old symbols yields the same as before. -/
theorem From.yields_iff (hr : ∀ a ∈ r, a ∈ s.grammar.vars → a ∈ g.vars) :
    s.grammar.Yields r w ↔ g.Yields r w := by
  constructor
  · intro hw
    obtain ⟨c, hc, hcw⟩ := h.exists_yields hg hdone hw
    have hself : c = r := by
      rw [← Rule.expands_self_iff]
      refine (Rule.expands_congr fun a ha y => ?_).1 hc
      have hnot : ∀ t : List String, s.tails[t]? ≠ some a :=
        fun t ht => (h.tail t a ht).1 (hr a ha (h.mem_vars ht))
      simp [Ends, hnot]
    exact hself ▸ hcw
  · intro hw
    apply hw.imp (by simp [h.terminals])
    intro v b hb u _ hu
    obtain ⟨d, hd, hcut⟩ := (hdone v (hg.mem_vars_of_rule hb)).complete b hb
    apply Yields.of_rule hd
    exact yields_of_cut (fun t x _ hx u hu => h.yields_tail t hx hu) hcut hu

end Language

end Cutting

section Binarize

variable (hg : g.WellFormed)
include hg

/-- A rule is a rule of the grammar that was cut, or the end of a longer one. -/
theorem WellFormed.exists_cut_of_mem_binarize (hb : b ∈ g.binarize.rules v) :
    ∃ r, Cut g.cutting.tails r b ∧
      (r ∈ g.rules v ∨ 2 ≤ r.length ∧ ∀ a ∈ r, g.IsLongSymbol a) := by
  obtain ⟨owner, h, hdone⟩ := Cutting.from_cutting hg
  rcases h.new v (h.wellFormed.mem_vars_of_rule hb) with hv | ⟨t, ht⟩
  · obtain ⟨r, hr, hcut⟩ := (hdone v hv).sound b hb
    exact ⟨r, hcut, .inl hr⟩
  · obtain ⟨-, c, hcut, hrules⟩ := (h.made t v ht).resolve_left List.not_mem_nil
    exact ⟨t, (hrules b).1 hb ▸ hcut, .inr (h.tail t v ht).2.2.2⟩

theorem WellFormed.yields_binarize_iff (hr : ∀ a ∈ r, a ∈ g.binarize.vars → a ∈ g.vars) :
    g.binarize.Yields r w ↔ g.Yields r w := by
  obtain ⟨owner, h, hdone⟩ := Cutting.from_cutting hg
  exact h.yields_iff hg hdone hr

theorem WellFormed.equivalent_binarize : g.Equivalent g.binarize := by
  obtain ⟨owner, h, -⟩ := Cutting.from_cutting hg
  refine ⟨h.wellFormed, h.terminals, fun w => ?_⟩
  have hstart : g.binarize.start = g.start := h.start
  rw [Derives, Derives, hstart, hg.yields_binarize_iff]
  intro a ha _
  exact List.mem_singleton.1 ha ▸ start_mem_vars g

end Binarize

end FormalLanguages.Grammar
