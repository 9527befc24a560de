import FormalLanguages.Grammar.Basic

/-!
# What rules yield

Derivations are taken apart along the symbols of a rule. For a change to a grammar there are two
things to show: that the new rules of a variable yield no more than the variable did, and that they
yield no less when each symbol is expanded in the manner of the change.
-/

namespace FormalLanguages

open Std

namespace Grammar

variable {g h : Grammar} {r s : Rule} {u w : List String} {t v : String}

def IsSymbol (g : Grammar) (s : String) : Prop := s ∈ g.terminals ∨ s ∈ g.vars

theorem yields_nil_iff : g.Yields [] w ↔ w = [] := by
  constructor
  · rintro ⟨⟩
    rfl
  · rintro rfl
    exact .nil

theorem Yields.append (hr : g.Yields r u) (hs : g.Yields s w) : g.Yields (r ++ s) (u ++ w) := by
  induction hr with
  | nil => exact hs
  | epsilon _ ih => exact .epsilon ih
  | terminal ht _ ih => exact .terminal ht ih
  | rule hb hbu _ _ ih =>
    rw [List.append_assoc]
    exact .rule hb hbu ih

theorem Yields.exists_of_cons (hw : g.Yields (v :: r) w) :
    ∃ x y, w = x ++ y ∧ g.Yields [v] x ∧ g.Yields r y := by
  cases hw with
  | epsilon hr => exact ⟨[], _, rfl, .epsilon .nil, hr⟩
  | terminal ht hr => exact ⟨[_], _, rfl, .terminal ht .nil, hr⟩
  | rule hb hbu hr =>
    refine ⟨_, _, rfl, ?_, hr⟩
    simpa using Yields.rule hb hbu .nil

theorem Yields.exists_of_append (hw : g.Yields (r ++ s) w) :
    ∃ x y, w = x ++ y ∧ g.Yields r x ∧ g.Yields s y := by
  induction r generalizing w with
  | nil => exact ⟨[], w, rfl, .nil, hw⟩
  | cons v r ih =>
    obtain ⟨x, z, rfl, hv, hz⟩ := hw.exists_of_cons
    obtain ⟨y, z, rfl, hr, hs⟩ := ih hz
    exact ⟨x ++ y, z, (List.append_assoc ..).symm, hv.append hr, hs⟩

theorem Yields.of_rule {b : Rule} (hb : b ∈ g.rules v) (hw : g.Yields b w) : g.Yields [v] w := by
  simpa using Yields.rule hb hw .nil

/-- What a word is made of. -/
theorem Yields.mem_terminals (h : g.Yields r w) : ∀ t ∈ w, t ∈ g.terminals := by
  induction h with
  | nil => simp
  | epsilon _ ih => exact ih
  | terminal ht _ ih =>
    intro s hs
    rcases List.mem_cons.1 hs with rfl | hs
    · exact ht
    · exact ih s hs
  | rule _ _ _ ihb ihr =>
    intro s hs
    exact (List.mem_append.1 hs).elim (ihb s) (ihr s)

/-- What a word is made of stands in the rules. -/
theorem Yields.exists_rule_of_mem (h : g.Yields r w) (ht : t ∈ w) :
    t ∈ r ∨ ∃ v, ∃ b ∈ g.rules v, t ∈ b := by
  induction h with
  | nil => cases ht
  | epsilon _ ih => exact (ih ht).imp_left (List.mem_cons_of_mem _)
  | terminal _ _ ih =>
    rcases List.mem_cons.1 ht with rfl | ht
    · exact .inl (List.mem_cons_self ..)
    · exact (ih ht).imp_left (List.mem_cons_of_mem _)
  | rule hb _ _ ihb ihr =>
    rcases List.mem_append.1 ht with ht | ht
    · exact .inr ((ihb ht).elim (fun ht => ⟨_, _, hb, ht⟩) id)
    · exact (ihr ht).imp_left (List.mem_cons_of_mem _)

theorem exists_yields_iff : (∃ w, g.Yields r w) ↔ ∀ a ∈ r, ∃ w, g.Yields [a] w := by
  constructor
  · rintro ⟨w, hw⟩ a ha
    obtain ⟨s, t, rfl⟩ := List.append_of_mem ha
    obtain ⟨_, _, _, _, hy⟩ := hw.exists_of_append
    obtain ⟨x, _, _, hx, _⟩ := hy.exists_of_cons
    exact ⟨x, hx⟩
  · intro h
    induction r with
    | nil => exact ⟨[], .nil⟩
    | cons a r ih =>
      obtain ⟨x, hx⟩ := h a (List.mem_cons_self ..)
      obtain ⟨y, hy⟩ := ih fun b hb => h b (List.mem_cons_of_mem a hb)
      exact ⟨x ++ y, hx.append hy⟩

theorem yields_empty_iff : g.Yields r [] ↔ ∀ a ∈ r, g.Yields [a] [] := by
  constructor
  · intro hw a ha
    obtain ⟨s, t, rfl⟩ := List.append_of_mem ha
    obtain ⟨x, y, hxy, -, hy⟩ := hw.exists_of_append
    obtain ⟨-, rfl⟩ := List.nil_eq_append_iff.1 hxy
    obtain ⟨x, y, hxy, hx, -⟩ := hy.exists_of_cons
    rwa [(List.nil_eq_append_iff.1 hxy).1] at hx
  · intro h
    induction r with
    | nil => exact .nil
    | cons a r ih =>
      have hr := ih fun b hb => h b (List.mem_cons_of_mem a hb)
      exact (h a (List.mem_cons_self ..)).append hr

/-- Another grammar yields as much if its variables do. -/
theorem Yields.imp (terminals : ∀ t ∈ g.terminals, t ∈ h.terminals)
    (var : ∀ v, ∀ b ∈ g.rules v, ∀ u, g.Yields b u → h.Yields b u → h.Yields [v] u)
    (hw : g.Yields r w) : h.Yields r w := by
  induction hw with
  | nil => exact .nil
  | epsilon _ ih => exact .epsilon ih
  | terminal ht _ ih => exact .terminal (terminals _ ht) ih
  | rule hb hbu _ ihb ihr => exact (var _ _ hb _ hbu ihb).append ihr

/-- Only the terminals, the start and the rules matter to derivations. -/
theorem derives_congr (start : h.start = g.start) (terminals : h.terminals = g.terminals)
    (rules : ∀ v, h.rules v = g.rules v) : h.Derives w ↔ g.Derives w := by
  rw [Derives, Derives, start]
  constructor
  · exact Yields.imp (fun t ht => terminals ▸ ht) fun v b hb _ _ hu => .of_rule (rules v ▸ hb) hu
  · exact Yields.imp (fun t ht => terminals ▸ ht) fun v b hb _ _ hu => .of_rule (rules v ▸ hb) hu

/-- The same for rules made of certain symbols, which lead only to such symbols. -/
theorem Yields.imp_of_closed {P : String → Prop}
    (terminals : ∀ t ∈ g.terminals, P t → t ∈ h.terminals)
    (closed : ∀ v, P v → ∀ b ∈ g.rules v, b ∈ h.rules v ∧ ∀ s ∈ b, P s)
    (hw : g.Yields r w) (hr : ∀ s ∈ r, P s) : h.Yields r w := by
  induction hw with
  | nil => exact .nil
  | epsilon _ ih => exact .epsilon (ih fun s hs => hr s (List.mem_cons_of_mem _ hs))
  | terminal ht _ ih =>
    have ht' := terminals _ ht (hr _ (List.mem_cons_self ..))
    exact .terminal ht' (ih fun s hs => hr s (List.mem_cons_of_mem _ hs))
  | rule hb _ _ ihb ihr =>
    obtain ⟨hb, hP⟩ := closed _ (hr _ (List.mem_cons_self ..)) _ hb
    exact .rule hb (ihb hP) (ihr fun s hs => hr s (List.mem_cons_of_mem _ hs))

end Grammar

/-- `r.Expands σ c`: each symbol of `r`, replaced by a rule that `σ` allows for it, gives `c`. -/
inductive Rule.Expands (σ : String → Rule → Prop) : Rule → Rule → Prop
  | nil : Expands σ [] []
  | cons {s x r c} : σ s x → Expands σ r c → Expands σ (s :: r) (x ++ c)

namespace Rule

variable {σ τ : String → Rule → Prop} {r c : Rule}

theorem expands_nil_iff : Expands σ [] c ↔ c = [] := by
  constructor
  · rintro ⟨⟩
    rfl
  · rintro rfl
    exact .nil

theorem expands_cons_iff {s : String} :
    Expands σ (s :: r) c ↔ ∃ x y, σ s x ∧ Expands σ r y ∧ c = x ++ y := by
  constructor
  · rintro ⟨⟩
    exact ⟨_, _, ‹_›, ‹_›, rfl⟩
  · rintro ⟨x, y, hx, hy, rfl⟩
    exact .cons hx hy

theorem expands_singleton_iff {s : String} : Expands σ [s] c ↔ σ s c := by
  simp [expands_cons_iff, expands_nil_iff]

theorem Expands.append {r' c' : Rule} (h : Expands σ r c) (h' : Expands σ r' c') :
    Expands σ (r ++ r') (c ++ c') := by
  induction h with
  | nil => exact h'
  | cons hx _ ih =>
    rw [List.append_assoc]
    exact .cons hx ih

theorem expands_append_iff {r' : Rule} :
    Expands σ (r ++ r') c ↔ ∃ x y, Expands σ r x ∧ Expands σ r' y ∧ c = x ++ y := by
  constructor
  · intro h
    induction r generalizing c with
    | nil => exact ⟨[], c, .nil, h, rfl⟩
    | cons s r ih =>
      obtain ⟨x, d, hx, hd, rfl⟩ := expands_cons_iff.1 h
      obtain ⟨y, z, hy, hz, rfl⟩ := ih hd
      exact ⟨x ++ y, z, .cons hx hy, hz, (List.append_assoc ..).symm⟩
  · rintro ⟨x, y, hx, hy, rfl⟩
    exact hx.append hy

theorem expands_congr (h : ∀ s ∈ r, ∀ x, σ s x ↔ τ s x) : Expands σ r c ↔ Expands τ r c := by
  induction r generalizing c with
  | nil => simp only [expands_nil_iff]
  | cons s r ih =>
    have hs := h s (List.mem_cons_self ..)
    have hr := fun c => ih (c := c) fun s hs => h s (List.mem_cons_of_mem _ hs)
    simp only [expands_cons_iff, hs, hr]

/-- When there is one choice for each symbol, there is one expansion. -/
theorem expands_eq_iff {f : String → Rule} :
    Expands (fun s x => x = f s) r c ↔ c = r.flatMap f := by
  induction r generalizing c with
  | nil => simp [expands_nil_iff]
  | cons s r ih => simp [expands_cons_iff, ih]

theorem expands_self_iff : Expands (fun s x => x = [s]) r c ↔ c = r := by
  simp [expands_eq_iff]

theorem Expands.mem {s : String} (h : Expands σ r c) (hs : s ∈ c) :
    ∃ a ∈ r, ∃ x, σ a x ∧ s ∈ x := by
  induction h with
  | nil => cases hs
  | cons hx _ ih =>
    rcases List.mem_append.1 hs with hs | hs
    · exact ⟨_, List.mem_cons_self .., _, hx, hs⟩
    · obtain ⟨a, ha, h⟩ := ih hs
      exact ⟨a, List.mem_cons_of_mem _ ha, h⟩

end Rule

namespace Grammar

open Rule

variable {g h : Grammar} {σ : String → Rule → Prop} {r c : Rule} {w : List String}

/-- What a rule yields is made of words that its symbols mean, when the meaning of a variable
allows for its rules. -/
theorem Yields.expands (eps : σ epsilonSymbol []) (term : ∀ t ∈ g.terminals, σ t [t])
    (var : ∀ v, ∀ b ∈ g.rules v, ∀ u, Expands σ b u → σ v u) (hw : g.Yields r w) :
    Expands σ r w := by
  induction hw with
  | nil => exact .nil
  | epsilon _ ih => exact .cons eps ih
  | terminal ht _ ih => exact .cons (term _ ht) ih
  | rule hb _ _ ihb ihr => exact .cons (var _ _ hb _ ihb) ihr

/-- A derivation is carried over to a grammar in which each symbol has an expansion that yields
as much. -/
theorem Yields.exists_expands (eps : ∃ x, σ epsilonSymbol x ∧ h.Yields x [])
    (term : ∀ t ∈ g.terminals, ∃ x, σ t x ∧ h.Yields x [t])
    (var : ∀ v, ∀ b ∈ g.rules v, ∀ u, g.Yields b u →
      (∃ c, Expands σ b c ∧ h.Yields c u) → ∃ x, σ v x ∧ h.Yields x u)
    (hw : g.Yields r w) : ∃ c, Expands σ r c ∧ h.Yields c w := by
  induction hw with
  | nil => exact ⟨[], .nil, .nil⟩
  | epsilon _ ih =>
    obtain ⟨x, hx, hxw⟩ := eps
    obtain ⟨c, hc, hcw⟩ := ih
    exact ⟨x ++ c, .cons hx hc, hxw.append hcw⟩
  | terminal ht _ ih =>
    obtain ⟨x, hx, hxw⟩ := term _ ht
    obtain ⟨c, hc, hcw⟩ := ih
    exact ⟨x ++ c, .cons hx hc, hxw.append hcw⟩
  | rule hb hbu _ ihb ihr =>
    obtain ⟨x, hx, hxw⟩ := var _ _ hb _ hbu ihb
    obtain ⟨c, hc, hcw⟩ := ihr
    exact ⟨x ++ c, .cons hx hc, hxw.append hcw⟩

/-- A rule yields what its expansions yield if each symbol does. -/
theorem Yields.of_expands (hσ : ∀ s x u, σ s x → g.Yields x u → g.Yields [s] u)
    (hc : Expands σ r c) (hw : g.Yields c w) : g.Yields r w := by
  induction hc generalizing w with
  | nil => exact hw
  | cons hx _ ih =>
    obtain ⟨u, v, rfl, hu, hv⟩ := hw.exists_of_append
    exact (hσ _ _ _ hx hu).append (ih hv)

/-- Symbols can be replaced by others that yield as much. -/
theorem Yields.map_of_map {f k : String → String}
    (h : ∀ s ∈ r, ∀ u, g.Yields [f s] u → g.Yields [k s] u) (hw : g.Yields (r.map f) w) :
    g.Yields (r.map k) w := by
  induction r generalizing w with
  | nil => exact hw
  | cons s r ih =>
    obtain ⟨u, v, rfl, hu, hv⟩ := hw.exists_of_cons
    have hr := ih (fun s hs => h s (List.mem_cons_of_mem _ hs)) hv
    exact (h s (List.mem_cons_self ..) u hu).append hr

theorem Yields.map {f : String → String} (h : ∀ s ∈ r, ∀ u, g.Yields [s] u → g.Yields [f s] u)
    (hw : g.Yields r w) : g.Yields (r.map f) w := by
  apply Yields.map_of_map (f := id) h
  rwa [List.map_id]

theorem Yields.of_map {f : String → String} (h : ∀ s ∈ r, ∀ u, g.Yields [f s] u → g.Yields [s] u)
    (hw : g.Yields (r.map f) w) : g.Yields r w := by
  have hr := Yields.map_of_map (k := id) h hw
  rwa [List.map_id] at hr

/-- What holds of the symbols that make up a word holds of those that yield it. -/
theorem Yields.forall_mem {P : String → Prop} (epsilon : P epsilonSymbol)
    (rule : ∀ v, ∀ b ∈ g.rules v, (∀ a ∈ b, P a) → P v) (hw : g.Yields r w)
    (terminal : ∀ t ∈ w, t ∈ g.terminals → P t) : ∀ a ∈ r, P a := by
  induction hw with
  | nil => exact fun a ha => absurd ha List.not_mem_nil
  | epsilon _ ih =>
    intro a ha
    rcases List.mem_cons.1 ha with rfl | ha
    · exact epsilon
    · exact ih terminal a ha
  | terminal ht _ ih =>
    intro a ha
    rcases List.mem_cons.1 ha with rfl | ha
    · exact terminal a (List.mem_cons_self ..) ht
    · exact ih (fun t hw => terminal t (List.mem_cons_of_mem _ hw)) a ha
  | rule hb _ _ ihb ihr =>
    intro a ha
    rcases List.mem_cons.1 ha with rfl | ha
    · exact rule a _ hb (ihb fun t hw => terminal t (List.mem_append_left _ hw))
    · exact ihr (fun t hw => terminal t (List.mem_append_right _ hw)) a ha

end Grammar

end FormalLanguages
