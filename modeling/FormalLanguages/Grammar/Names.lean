/-!
# Unused names

Names are made from a base and a number. The first one that is not taken is found by trying the
numbers in turn.
-/

namespace FormalLanguages

def numbered (base : String) (n : Nat) : String := base ++ toString n

/-- The first number from `n` on whose name is not taken. One number more than there are taken
names is enough to try, if no two numbers give the same name. -/
def firstFree (name : Nat → String) (taken : List String) (n : Nat) : Nat :=
  ((List.range' n (taken.length + 1)).find? (name · ∉ taken)).getD n

/-- The base itself if it is not taken, or else the base with the least possible number. -/
def unusedName (base : String) (taken : List String) : String :=
  if base ∈ taken then numbered base (firstFree (numbered base) taken 1) else base

end FormalLanguages
