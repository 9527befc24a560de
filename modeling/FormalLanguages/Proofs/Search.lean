import FormalLanguages.Proofs.Sets
import FormalLanguages.Search
import Mathlib.Logic.Relation

/-!
# Searches come to an end

A bounded loop that makes progress in each step has nothing left to do when its bound is large
enough. Then what a search has found is closed under successors, and it is contained in whatever
contains the starting points and is closed under successors itself.
-/

namespace FormalLanguages

open Std Relation

section Loops

variable {α : Type} {P : α → Prop}

theorem saturate_induction [DecidableEq α] {step : α → α} (preserved : ∀ a, P a → P (step a))
    (bound : Nat) {a : α} (ha : P a) : P (saturate step bound a) := by
  induction bound generalizing a with
  | zero => exact ha
  | succ bound ih =>
    simp only [saturate]
    split
    · exact ha
    · exact ih (preserved a ha)

/-- A value that grows with every step and cannot grow forever is left unchanged in the end. -/
theorem step_saturate [DecidableEq α] {step : α → α} (rank : α → Nat) (limit : Nat)
    {bound : Nat} (preserved : ∀ a, P a → P (step a))
    (grows : ∀ a, P a → step a ≠ a → rank a < rank (step a))
    (le_limit : ∀ a, P a → rank a ≤ limit) {a : α} (ha : P a) (hb : limit ≤ rank a + bound) :
    step (saturate step bound a) = saturate step bound a := by
  induction bound generalizing a with
  | zero =>
    apply Decidable.byContradiction
    intro hne
    have hlt := grows a ha hne
    have hle := le_limit _ (preserved a ha)
    omega
  | succ bound ih =>
    simp only [saturate]
    split
    · next h => exact h
    · next h =>
      have hlt := grows a ha h
      exact ih (preserved a ha) (by omega)

theorem exhaust_induction {step? : α → Option α}
    (preserved : ∀ a b, P a → step? a = some b → P b) (bound : Nat) {a : α} (ha : P a) :
    P (exhaust step? bound a) := by
  induction bound generalizing a with
  | zero => exact ha
  | succ bound ih =>
    simp only [exhaust]
    split
    · next b h => exact ih (preserved a b ha h)
    · exact ha

/-- The loop without a bound: it ends when there is no step to take. -/
inductive Exhausts (step? : α → Option α) : α → α → Prop
  | done {a} : step? a = none → Exhausts step? a a
  | step {a b c} : step? a = some b → Exhausts step? b c → Exhausts step? a c

theorem Exhausts.step?_eq_none {step? : α → Option α} {a b : α} (h : Exhausts step? a b) :
    step? b = none := by
  induction h with
  | done h => exact h
  | step _ _ ih => exact ih

/-- When each step makes a value smaller, the loop without a bound comes to the same end. -/
theorem exhausts_exhaust {step? : α → Option α} (rank : α → Nat) {bound : Nat}
    (preserved : ∀ a b, P a → step? a = some b → P b)
    (shrinks : ∀ a b, P a → step? a = some b → rank b < rank a) {a : α} (ha : P a)
    (hb : rank a ≤ bound) : Exhausts step? a (exhaust step? bound a) := by
  induction bound generalizing a with
  | zero =>
    cases h : step? a with
    | none => exact .done h
    | some b =>
      have hlt := shrinks a b ha h
      omega
  | succ bound ih =>
    simp only [exhaust]
    split
    · next b h =>
      have hlt := shrinks a b ha h
      exact .step h (ih (preserved a b ha h) (by omega))
    · next h => exact .done h

/-- A loop that is free in the choice of its steps: whichever it takes, it ends, and always with
`b`. -/
inductive EndsWith (step : α → α → Prop) (b : α) : α → Prop
  | intro {a} : (∀ c, step a c → EndsWith step b c) → ((∀ c, ¬ step a c) → a = b) →
    EndsWith step b a

/-- Each step makes a value smaller, and the values without a step are all the same. -/
theorem endsWith_of_rank {step : α → α → Prop} {b : α} (rank : α → Nat)
    (preserved : ∀ a c, P a → step a c → P c)
    (shrinks : ∀ a c, P a → step a c → rank c < rank a)
    (last : ∀ a, P a → (∀ c, ¬ step a c) → a = b) {a : α} (ha : P a) : EndsWith step b a := by
  induction hr : rank a using Nat.strongRecOn generalizing a with
  | ind n ih =>
    refine .intro (fun c hc => ?_) (last a ha)
    exact ih (rank c) (hr ▸ shrinks a c ha hc) (preserved a c ha hc) rfl

end Loops

namespace Search

section Waiting

variable {α : Type} {d : Discipline} {waiting : List α} {a b : α}

@[simp] theorem mem_add : b ∈ d.add waiting a ↔ b = a ∨ b ∈ waiting := by
  cases d <;> simp [Discipline.add, or_comm]

@[simp] theorem length_add : (d.add waiting a).length = waiting.length + 1 := by
  cases d <;> simp [Discipline.add]

end Waiting

variable {α : Type} [Ord α] [TransOrd α] {d : Discipline} {next : ExtTreeSet α → α → List α}

/-- What holds between two turns: the values that do not wait have been visited together with
their successors. -/
structure Sound (next : ExtTreeSet α → α → List α) (waiting : List α) (found : Found α) : Prop where
  seen_of_waiting : ∀ a ∈ waiting, a ∈ found.seen
  mem_order : ∀ a, a ∈ found.order ↔ a ∈ found.seen
  visited : ∀ a ∈ found.seen, a ∈ waiting ∨
    ∃ s : ExtTreeSet α, (∀ b ∈ s, b ∈ found.seen) ∧ ∀ b ∈ next s a, b ∈ found.seen

theorem mem_waiting_visit (s : List α × Found α) (a b : α) :
    b ∈ (visit d s a).1 ↔ b ∈ s.1 ∨ b = a ∧ b ∉ s.2.seen := by
  unfold visit
  split
  · next ha => grind
  · next ha => rw [mem_add]; grind

/-- Each value that is found begins to wait. -/
theorem size_visit (s : List α × Found α) (a : α) :
    (visit d s a).2.seen.size + s.1.length = s.2.seen.size + (visit d s a).1.length := by
  unfold visit
  split
  · rfl
  · next ha =>
    rw [← ExtTreeSet.contains_iff_mem, Bool.not_eq_true] at ha
    simp only [ExtTreeSet.size_insert, ha, length_add]
    simp only [Bool.false_eq_true, if_false]
    omega

theorem size_foldl_visit (l : List α) (s : List α × Found α) :
    (l.foldl (visit d) s).2.seen.size + s.1.length =
      s.2.seen.size + (l.foldl (visit d) s).1.length := by
  induction l generalizing s with
  | nil => rfl
  | cons a l ih =>
    have h := ih (visit d s a)
    have ha := size_visit (d := d) s a
    simp only [List.foldl_cons]
    omega

theorem foldl_visit_induction {P : Found α → Prop} (kept : ∀ s a, P s.2 → P (visit d s a).2)
    (l : List α) {s : List α × Found α} (h : P s.2) : P (l.foldl (visit d) s).2 := by
  induction l generalizing s with
  | nil => exact h
  | cons a l ih => exact ih (kept s a h)

/-- What each visit keeps holds in the end. -/
theorem explore_visit_induction {P : Found α → Prop} (kept : ∀ s a, P s.2 → P (visit d s a).2)
    (bound : Nat) {waiting : List α} {found : Found α} (h : P found) :
    P (explore d next bound waiting found) := by
  induction bound generalizing waiting found with
  | zero => exact h
  | succ bound ih =>
    cases waiting with
    | nil => exact h
    | cons a waiting => exact ih (foldl_visit_induction kept _ h)

/-- The starting point is found first. -/
theorem getLast?_order_spread {a : α} {bound : Nat} :
    (spread d next bound [a]).order.getLast? = some a := by
  have kept : ∀ (s : List α × Found α) (b : α), s.2.order.getLast? = some a →
      (visit d s b).2.order.getLast? = some a := by
    intro s b h
    unfold visit
    split
    · exact h
    · rw [List.getLast?_cons, h, Option.getD_some]
  apply explore_visit_induction (P := fun found => found.order.getLast? = some a) kept
  simp [visit]

variable [LawfulEqOrd α]

theorem mem_order_visit {s : List α × Found α} (h : ∀ b, b ∈ s.2.order ↔ b ∈ s.2.seen) (a b : α) :
    b ∈ (visit d s a).2.order ↔ b ∈ (visit d s a).2.seen := by
  rw [mem_seen_visit]
  unfold visit
  split
  · next ha => rw [h, iff_or_self]; exact fun e => e ▸ ha
  · rw [List.mem_cons, h]

theorem mem_order_foldl_visit {s : List α × Found α} (h : ∀ b, b ∈ s.2.order ↔ b ∈ s.2.seen)
    (l : List α) (b : α) :
    b ∈ (l.foldl (visit d) s).2.order ↔ b ∈ (l.foldl (visit d) s).2.seen := by
  induction l generalizing s with
  | nil => exact h b
  | cons a l ih => exact ih (mem_order_visit h a)

structure Found.Listed (found : Found α) : Prop where
  mem_order : ∀ a, a ∈ found.order ↔ a ∈ found.seen
  nodup : found.order.Nodup

theorem Found.Listed.visit {s : List α × Found α} (h : s.2.Listed) (a : α) :
    (visit d s a).2.Listed where
  mem_order := mem_order_visit h.mem_order a
  nodup := by
    unfold Search.visit
    split
    · exact h.nodup
    · next ha => exact List.nodup_cons.2 ⟨fun hmem => ha ((h.mem_order a).1 hmem), h.nodup⟩

theorem mem_waiting_foldl_visit (l : List α) (s : List α × Found α) (b : α) :
    b ∈ (l.foldl (visit d) s).1 ↔ b ∈ s.1 ∨ b ∈ l ∧ b ∉ s.2.seen := by
  induction l generalizing s with
  | nil => simp
  | cons a l ih =>
    rw [List.foldl_cons, ih, mem_waiting_visit, mem_seen_visit]
    grind

/-- One turn: the value that is taken has its successors visited. -/
theorem Sound.turn {a : α} {waiting : List α} {found : Found α}
    (h : Sound next (a :: waiting) found) :
    Sound next ((next found.seen a).foldl (visit d) (waiting, found)).1
      ((next found.seen a).foldl (visit d) (waiting, found)).2 := by
  constructor
  · intro b hb
    rw [mem_seen_foldl_visit]
    rcases (mem_waiting_foldl_visit ..).1 hb with hb | ⟨hb, -⟩
    · exact .inr (h.seen_of_waiting b (List.mem_cons_of_mem a hb))
    · exact .inl hb
  · exact mem_order_foldl_visit h.mem_order _
  · simp only [mem_seen_foldl_visit, mem_waiting_foldl_visit]
    intro b hb
    by_cases hseen : b ∈ found.seen
    · rcases h.visited b hseen with hw | ⟨s, hs, hn⟩
      · rcases List.mem_cons.1 hw with rfl | hw
        · exact .inr ⟨found.seen, fun c hc => .inr hc, fun c hc => .inl hc⟩
        · exact .inl (.inl hw)
      · exact .inr ⟨s, fun c hc => .inr (hs c hc), fun c hc => .inr (hn c hc)⟩
    · exact .inl (.inr ⟨hb.resolve_right hseen, hseen⟩)

structure Within (P : α → Prop) (waiting : List α) (found : Found α) : Prop where
  of_waiting : ∀ a ∈ waiting, P a
  of_seen : ∀ a ∈ found.seen, P a

theorem Within.foldl_visit {P : α → Prop} {l : List α} {s : List α × Found α}
    (h : Within P s.1 s.2) (hl : ∀ a ∈ l, P a) :
    Within P (l.foldl (visit d) s).1 (l.foldl (visit d) s).2 := by
  constructor
  · intro a ha
    rcases (mem_waiting_foldl_visit ..).1 ha with ha | ⟨ha, -⟩
    · exact h.of_waiting a ha
    · exact hl a ha
  · intro a ha
    rcases (mem_seen_foldl_visit ..).1 ha with ha | ha
    · exact hl a ha
    · exact h.of_seen a ha

theorem Within.turn {P : α → Prop} {a : α} {waiting : List α} {found : Found α}
    (step : ∀ s : ExtTreeSet α, (∀ b ∈ s, P b) → ∀ a, P a → ∀ b ∈ next s a, P b)
    (h : Within P (a :: waiting) found) :
    Within P ((next found.seen a).foldl (visit d) (waiting, found)).1
      ((next found.seen a).foldl (visit d) (waiting, found)).2 := by
  have hwaiting : Within P waiting found :=
    ⟨fun b hb => h.of_waiting b (List.mem_cons_of_mem a hb), h.of_seen⟩
  apply Within.foldl_visit (s := (waiting, found)) hwaiting
  exact step found.seen h.of_seen a (h.of_waiting a (List.mem_cons_self ..))

theorem within_starts {P : α → Prop} {starts : List α} (hstarts : ∀ a ∈ starts, P a) :
    Within P (starts.foldl (visit d) ([], {})).1 (starts.foldl (visit d) ([], {})).2 := by
  have hempty : Within P [] ({} : Found α) :=
    ⟨fun _ ha => absurd ha List.not_mem_nil, fun _ ha => absurd ha ExtTreeSet.not_mem_empty⟩
  exact Within.foldl_visit (s := ([], {})) hempty hstarts

/-- The loop without a bound: it ends when nothing waits any more. -/
inductive Explores (d : Discipline) (next : ExtTreeSet α → α → List α) :
    List α → Found α → Found α → Prop
  | done {found} : Explores d next [] found found
  | turn {a waiting found result} :
    Explores d next ((next found.seen a).foldl (visit d) (waiting, found)).1
      ((next found.seen a).foldl (visit d) (waiting, found)).2 result →
    Explores d next (a :: waiting) found result

theorem Explores.sound {waiting : List α} {found result : Found α}
    (h : Explores d next waiting found result) (hs : Sound next waiting found) :
    Sound next [] result := by
  induction h with
  | done => exact hs
  | turn _ ih => exact ih hs.turn

/-- When the bound is large enough, the loop without a bound comes to the same end. -/
theorem explores_explore {l : List α} {bound : Nat} {waiting : List α} {found : Found α}
    (step : ∀ s : ExtTreeSet α, (∀ b ∈ s, b ∈ l) → ∀ a ∈ l, ∀ b ∈ next s a, b ∈ l)
    (hl : Within (· ∈ l) waiting found) (hb : l.length + waiting.length ≤ found.seen.size + bound) :
    Explores d next waiting found (explore d next bound waiting found) := by
  induction bound generalizing waiting found with
  | zero =>
    have hle := size_le_length hl.of_seen
    have hnil : waiting = [] := List.eq_nil_of_length_eq_zero (by omega)
    rw [hnil]
    exact .done
  | succ bound ih =>
    cases waiting with
    | nil => exact .done
    | cons a waiting =>
      have hsize := size_foldl_visit (d := d) (next found.seen a) (waiting, found)
      apply Explores.turn
      apply ih (hl.turn step)
      simp only [List.length_cons] at hb hsize ⊢
      omega

theorem explore_induction {P : α → Prop}
    (step : ∀ s : ExtTreeSet α, (∀ b ∈ s, P b) → ∀ a, P a → ∀ b ∈ next s a, P b)
    (bound : Nat) {waiting : List α} {found : Found α} (h : Within P waiting found) :
    ∀ a ∈ (explore d next bound waiting found).seen, P a := by
  induction bound generalizing waiting found with
  | zero => exact h.of_seen
  | succ bound ih =>
    cases waiting with
    | nil => exact h.of_seen
    | cons a waiting => exact ih (h.turn step)

theorem explore_mono (bound : Nat) {waiting : List α} {found : Found α} {a : α}
    (ha : a ∈ found.seen) : a ∈ (explore d next bound waiting found).seen := by
  induction bound generalizing waiting found with
  | zero => exact ha
  | succ bound ih =>
    cases waiting with
    | nil => exact ha
    | cons b waiting => exact ih ((mem_seen_foldl_visit ..).2 (.inr ha))

section Spread

variable {l starts : List α} {bound : Nat}

theorem listed_spread : (spread d next bound starts).Listed :=
  explore_visit_induction (fun _ a h => h.visit a) bound
    (foldl_visit_induction (fun _ a h => h.visit a) starts ⟨by simp, List.nodup_nil⟩)

theorem mem_spread_of_start {a : α} (ha : a ∈ starts) : a ∈ (spread d next bound starts).seen :=
  explore_mono _ ((mem_seen_foldl_visit ..).2 (.inl ha))

theorem spread_induction {P : α → Prop} (hstarts : ∀ a ∈ starts, P a)
    (step : ∀ s : ExtTreeSet α, (∀ b ∈ s, P b) → ∀ a, P a → ∀ b ∈ next s a, P b) :
    ∀ a ∈ (spread d next bound starts).seen, P a :=
  explore_induction step bound (within_starts hstarts)

/-- The loop without a bound that begins with some values: all that it finds. -/
def Spreads (d : Discipline) (next : ExtTreeSet α → α → List α) (starts : List α)
    (result : Found α) : Prop :=
  Explores d next (starts.foldl (visit d) ([], {})).1 (starts.foldl (visit d) ([], {})).2 result

/-- In the beginning just the starting points are found, and all of them wait. -/
theorem mem_seen_starts {a : α} :
    a ∈ (starts.foldl (visit d) ([], {})).2.seen ↔ a ∈ starts := by
  simp

theorem mem_waiting_starts {a : α} :
    a ∈ (starts.foldl (visit d) ([], {})).1 ↔ a ∈ starts := by
  simp [mem_waiting_foldl_visit]

theorem Spreads.sound {result : Found α} (h : Spreads d next starts result) :
    Sound next [] result := by
  apply Explores.sound h
  constructor
  · exact fun a ha => mem_seen_starts.2 (mem_waiting_starts.1 ha)
  · exact mem_order_foldl_visit (by simp) _
  · exact fun a ha => .inl (mem_waiting_starts.2 (mem_seen_starts.1 ha))

theorem spreads_spread (hstarts : ∀ a ∈ starts, a ∈ l)
    (step : ∀ s : ExtTreeSet α, (∀ b ∈ s, b ∈ l) → ∀ a ∈ l, ∀ b ∈ next s a, b ∈ l)
    (hbound : l.length ≤ bound) : Spreads d next starts (spread d next bound starts) := by
  have hsize := size_foldl_visit (d := d) starts ([], {})
  apply explores_explore step (within_starts hstarts)
  simp only [ExtTreeSet.size_empty, List.length_nil] at hsize
  omega

/-- The successors of a value were visited when some of the values were found. -/
theorem exists_of_mem_spread (hstarts : ∀ a ∈ starts, a ∈ l)
    (step : ∀ s : ExtTreeSet α, (∀ b ∈ s, b ∈ l) → ∀ a ∈ l, ∀ b ∈ next s a, b ∈ l)
    (hbound : l.length ≤ bound) {a : α} (ha : a ∈ (spread d next bound starts).seen) :
    ∃ s : ExtTreeSet α, (∀ b ∈ s, b ∈ (spread d next bound starts).seen) ∧
      ∀ b ∈ next s a, b ∈ (spread d next bound starts).seen :=
  ((spreads_spread hstarts step hbound).sound.visited a ha).resolve_left List.not_mem_nil

end Spread

section Reach

variable {next : α → List α} {l starts : List α} {bound : Nat}

theorem mem_reach_iff (hstarts : ∀ a ∈ starts, a ∈ l) (step : ∀ a ∈ l, ∀ b ∈ next a, b ∈ l)
    (hbound : l.length ≤ bound) {b : α} :
    b ∈ (reach next bound starts).seen ↔
      ∃ a ∈ starts, ReflTransGen (fun a b => b ∈ next a) a b := by
  constructor
  · refine spread_induction (P := fun b => ∃ a ∈ starts, ReflTransGen (fun a b => b ∈ next a) a b)
      (fun a ha => ⟨a, ha, .refl⟩) ?_ b
    rintro - - a ⟨c, hc, hca⟩ b hb
    exact ⟨c, hc, hca.tail hb⟩
  · rintro ⟨a, ha, hab⟩
    induction hab with
    | refl => exact mem_spread_of_start ha
    | tail _ hstep ih =>
      obtain ⟨-, -, hnext⟩ := exists_of_mem_spread hstarts (fun _ _ => step) hbound ih
      exact hnext _ hstep

end Reach

end Search

end FormalLanguages
