import Std.Data.ExtTreeSet

/-!
# Exploring finite graphs and finite sets

`Search.spread` collects what can be found from some starting points, each value once, in the order
in which it is found. `saturate` grows a value until a step leaves it as it is, and
`exhaust` takes steps as long as there is one to take. They are given a bound on the number of
steps; a bound that is large enough does not show in the result.
-/

namespace FormalLanguages

open Std

namespace Search

/-- The values found so far, the latest first, and the set of them for looking up. -/
structure Found (α : Type) [Ord α] where
  order : List α := []
  seen : ExtTreeSet α := ∅

variable {α : Type} [Ord α] [TransOrd α]

/-- Where a value that was found waits for its turn. -/
inductive Discipline where
  /-- The value found last is taken first. -/
  | stack
  /-- The value found first is taken first. -/
  | queue

def Discipline.add (d : Discipline) (waiting : List α) (a : α) : List α :=
  match d with
  | stack => a :: waiting
  | queue => waiting ++ [a]

/-- A value that is new is noted and waits for its own successors. -/
def visit (d : Discipline) (s : List α × Found α) (a : α) : List α × Found α :=
  if a ∈ s.2.seen then s else (d.add s.1 a, ⟨a :: s.2.order, s.2.seen.insert a⟩)

@[simp] theorem mem_seen_visit [LawfulEqOrd α] (d : Discipline) (s : List α × Found α) (a b : α) :
    b ∈ (visit d s a).2.seen ↔ b = a ∨ b ∈ s.2.seen := by
  unfold visit
  split
  · next h => exact ⟨.inr, fun | .inl e => e ▸ h | .inr h => h⟩
  · rw [ExtTreeSet.mem_insert, LawfulEqCmp.compare_eq_iff_eq, eq_comm]

@[simp] theorem mem_seen_foldl_visit [LawfulEqOrd α] (d : Discipline) (l : List α)
    (s : List α × Found α) (b : α) :
    b ∈ (l.foldl (visit d) s).2.seen ↔ b ∈ l ∨ b ∈ s.2.seen := by
  induction l generalizing s with
  | nil => simp
  | cons a l ih => simp [ih, or_assoc, or_left_comm]

/-- Takes the values that wait one by one and visits their successors, `bound` times at most. The
successors of a value may depend on what is found by then. -/
def explore (d : Discipline) (next : ExtTreeSet α → α → List α) : Nat → List α → Found α → Found α
  | 0, _, found => found
  | _ + 1, [], found => found
  | bound + 1, a :: waiting, found =>
    let visited := (next found.seen a).foldl (visit d) (waiting, found)
    explore d next bound visited.1 visited.2

/-- All that is found from the starting points. A bound not below the number of values that can
be found is large enough, since each of them waits once. -/
def spread (d : Discipline) (next : ExtTreeSet α → α → List α) (bound : Nat) (starts : List α) :
    Found α :=
  let visited := starts.foldl (visit d) ([], {})
  explore d next bound visited.1 visited.2

/-- All that can be reached from the starting points, where each value has the same successors at
any time. -/
def reach (next : α → List α) (bound : Nat) (starts : List α) : Found α :=
  spread .stack (fun _ => next) bound starts

end Search

/-- Applies a step until it changes nothing, `bound` times at most. -/
def saturate {α : Type} [DecidableEq α] (step : α → α) : Nat → α → α
  | 0, a => a
  | bound + 1, a =>
    let b := step a
    if b = a then a else saturate step bound b

/-- Takes steps until there is none, `bound` at most. -/
def exhaust {α : Type} (step? : α → Option α) : Nat → α → α
  | 0, a => a
  | bound + 1, a => match step? a with
    | some b => exhaust step? bound b
    | none => a

end FormalLanguages
