import FormalLanguages.Grammar.Names
import FormalLanguages.Alphabet

/-!
# Fresh names

A name that is tried among as many numbers as there are taken names, and one more, is found, since
different numbers give different names.
-/

namespace FormalLanguages

section FirstFree

variable {name : Nat → String} {taken : List String} {n : Nat}

theorem exists_free (injective : ∀ i j, name i = name j → i = j) (taken : List String) (n : Nat) :
    ∃ k ∈ List.range' n (taken.length + 1), name k ∉ taken := by
  apply Decidable.byContradiction
  intro h
  have hsub : (List.range' n (taken.length + 1)).map name ⊆ taken := by
    intro s hs
    obtain ⟨k, hk, rfl⟩ := List.mem_map.1 hs
    exact Decidable.byContradiction fun hne => h ⟨k, hk, hne⟩
  have hnodup : ((List.range' n (taken.length + 1)).map name).Nodup :=
    List.pairwise_map.2 ((List.nodup_range' ..).imp fun hne heq => hne (injective _ _ heq))
  have hle := hnodup.length_le_of_subset hsub
  simp only [List.length_map, List.length_range'] at hle
  omega

theorem firstFree_not_mem (injective : ∀ i j, name i = name j → i = j) :
    name (firstFree name taken n) ∉ taken := by
  obtain ⟨k, hk, hfree⟩ := exists_free injective taken n
  unfold firstFree
  cases h : (List.range' n (taken.length + 1)).find? (name · ∉ taken) with
  | none => exact absurd (List.find?_eq_none.1 h k hk) (by simpa using hfree)
  | some m => simpa using List.find?_some h

theorem le_firstFree : n ≤ firstFree name taken n := by
  unfold firstFree
  cases h : (List.range' n (taken.length + 1)).find? (name · ∉ taken) with
  | none => exact Nat.le_refl n
  | some m => exact (List.mem_range'_1.1 (List.mem_of_find?_eq_some h)).1

/-- The numbers before it have names that are taken. -/
theorem mem_of_lt_firstFree (injective : ∀ i j, name i = name j → i = j) {k : Nat} (hk : n ≤ k)
    (h : k < firstFree name taken n) : name k ∈ taken := by
  obtain ⟨m, hm, hfree⟩ := exists_free injective taken n
  unfold firstFree at h
  cases hfind : (List.range' n (taken.length + 1)).find? (name · ∉ taken) with
  | none => exact absurd (List.find?_eq_none.1 hfind m hm) (by simpa using hfree)
  | some m =>
    rw [hfind, Option.getD_some] at h
    simpa using (List.find?_range'_eq_some.1 hfind).2.2 k hk h

end FirstFree

section Numbered

variable {base : String} {taken : List String}

theorem toDigits_injective {i j : Nat} (h : Nat.toDigits 10 i = Nat.toDigits 10 j) : i = j := by
  have hv := congrArg (Nat.ofDigitChars 10 · 0) h
  simpa only [Nat.ofDigitChars_ten_toDigits] using hv

theorem not_mem_toDigits {c : Char} (hc : c.isDigit = false) (n : Nat) :
    c ∉ Nat.toDigits 10 n := by
  intro h
  have hdigit := Nat.isDigit_of_mem_toDigits (by decide) (by decide) h
  rw [hc] at hdigit
  cases hdigit

theorem numbered_injective (base : String) (i j : Nat) (h : numbered base i = numbered base j) :
    i = j := by
  have hl := congrArg String.toList h
  simp only [numbered, String.toList_append, Nat.toString_eq_repr, Nat.toList_repr,
    List.append_cancel_left_eq] at hl
  exact toDigits_injective hl

/-- A name that ends in a number is not the empty word. -/
theorem numbered_ne_epsilon (base : String) (n : Nat) : numbered base n ≠ epsilonSymbol := by
  intro h
  have hε : epsilonSymbol.toList = ['ε'] := by decide
  have hl := congrArg String.toList h
  rw [hε, numbered, String.toList_append, Nat.toString_eq_repr, Nat.toList_repr] at hl
  have hmem : 'ε' ∈ Nat.toDigits 10 n := by
    rcases List.append_eq_singleton_iff.1 hl with ⟨-, hd⟩ | ⟨-, hd⟩
    · simp [hd]
    · exact absurd hd Nat.toDigits_ne_nil
  exact not_mem_toDigits (by decide) n hmem

theorem unusedName_not_mem : unusedName base taken ∉ taken := by
  unfold unusedName
  split
  · exact firstFree_not_mem (numbered_injective base)
  · next h => exact h

theorem unusedName_ne_epsilon (h : base ≠ epsilonSymbol) :
    unusedName base taken ≠ epsilonSymbol := by
  unfold unusedName
  split
  · exact numbered_ne_epsilon base _
  · exact h

end Numbered

end FormalLanguages
