import FormalLanguages.Error
import Std.Data.ExtTreeSet

/-!
# State numbers

States are numbered from zero to a fixed last number. A supply hands out numbers in ascending
order, never the same one twice, and can be told to skip the numbers already in use elsewhere.
-/

namespace FormalLanguages

abbrev State := Nat

abbrev StateSet := Std.ExtTreeSet State

def StateSet.greatest? (s : StateSet) : Option State := s.toList.getLast?

theorem StateSet.le_greatest {s : StateSet} {q m : State} (hq : q ∈ s)
    (hm : s.greatest? = some m) : q ≤ m := by
  have hq := Std.ExtTreeSet.mem_toList.2 hq
  have ordered := Std.ExtTreeSet.ordered_toList (t := s)
  obtain ⟨l, hl⟩ := List.getLast?_eq_some_iff.1 hm
  rw [hl] at hq ordered
  rcases List.mem_append.1 hq with hq | hq
  · exact Nat.le_of_lt (Nat.compare_eq_lt.1 ((List.pairwise_append.1 ordered).2.2 q hq m (by simp)))
  · simp_all

/-- The last number that fits in 32 bits. -/
def State.last : State := 4294967295

/-- The next number to hand out. -/
structure Supply where
  next : State := 0
deriving DecidableEq, Repr

/-- A computation that draws state numbers. -/
abbrev Fresh := StateT Supply (Except Error)

/-- Draws a number. The last one cannot be drawn, since no supply could follow it. -/
def fresh : Fresh State := fun supply =>
  if supply.next < State.last then .ok (supply.next, { next := supply.next + 1 })
  else .error .outOfStates

theorem fresh_eq_ok_iff {s s' : Supply} {q : State} :
    fresh s = .ok (q, s') ↔ q = s.next ∧ s'.next = q + 1 ∧ q < State.last := by
  cases s'
  unfold fresh
  split <;> simp <;> grind

/-- Numbers drawn from here on are above the given one. -/
def reservePast (q : State) : Fresh Unit := fun supply =>
  if q < State.last then .ok ((), { next := max supply.next (q + 1) })
  else .error .outOfStates

theorem reservePast_eq_ok_iff {s s' : Supply} {q : State} :
    reservePast q s = .ok ((), s') ↔ q < State.last ∧ s'.next = max s.next (q + 1) := by
  cases s'
  unfold reservePast
  split <;> simp <;> grind

def Supply.run {α : Type} (supply : Supply) (m : Fresh α) : Except Error α :=
  (StateT.run m supply).map (·.1)

end FormalLanguages
