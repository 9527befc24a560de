import FormalLanguages.Grammar.Rename
import FormalLanguages.Proofs.Grammar.Names
import Mathlib.Data.List.Induction
import Mathlib.Data.List.Nodup
import Mathlib.Data.List.Shortlex

/-!
# The order of the short names

The short names are the words of capital letters, the shorter ones first and those of one length in
the order of the alphabet. Variables get them in this order, where the terminals are left out.
-/

namespace FormalLanguages.Grammar

open Std

variable {g : Grammar} {s t v : String}

/-! ### Names by number -/

section ColumnName

variable {i j k n : Nat}

theorem letter_isUpper : ∀ a < 26, (Char.ofNat ('A'.toNat + a)).isUpper := by decide

theorem letter_lt_letter : ∀ b < 26, ∀ a < b,
    Char.ofNat ('A'.toNat + a) < Char.ofNat ('A'.toNat + b) := by decide

/-- Each capital letter has its number. -/
theorem exists_letter {c : Char} (hc : c.isUpper) : ∃ a < 26, Char.ofNat ('A'.toNat + a) = c := by
  have hrange : 'A'.val ≤ c.val ∧ c.val ≤ 'Z'.val := of_decide_eq_true hc
  have hlow : 'A'.toNat ≤ c.toNat := UInt32.le_iff_toNat_le.1 hrange.1
  have hhigh : c.toNat ≤ 'Z'.toNat := UInt32.le_iff_toNat_le.1 hrange.2
  have hZ : 'Z'.toNat = 'A'.toNat + 25 := rfl
  refine ⟨c.toNat - 'A'.toNat, by omega, ?_⟩
  rw [Nat.add_sub_cancel' hlow, Char.ofNat_toNat]

theorem columnName_of_lt (h : n < 26) : columnName n = [Char.ofNat ('A'.toNat + n)] := by
  rw [columnName, if_pos h, Nat.mod_eq_of_lt h]

/-- A letter behind a short name gives a short name. -/
theorem columnName_append {a : Nat} (ha : a < 26) :
    columnName ((k + 1) * 26 + a) = columnName k ++ [Char.ofNat ('A'.toNat + a)] := by
  have hquotient : ((k + 1) * 26 + a) / 26 - 1 = k := by omega
  have hremainder : ((k + 1) * 26 + a) % 26 = a := by omega
  rw [columnName, if_neg (by omega), hquotient, hremainder]

/-- Numbers by the last letters of their names. -/
theorem columnName_induction {P : Nat → Prop} (single : ∀ a < 26, P a)
    (append : ∀ k a, a < 26 → P k → P ((k + 1) * 26 + a)) (n : Nat) : P n := by
  induction n using Nat.strongRecOn with
  | ind n ih =>
    by_cases hn : n < 26
    · exact single n hn
    · have heq : n = (n / 26 - 1 + 1) * 26 + n % 26 := by omega
      rw [heq]
      exact append _ _ (Nat.mod_lt n (by decide)) (ih _ (by omega))

theorem columnName_ne_nil (n : Nat) : columnName n ≠ [] := by
  induction n using columnName_induction with
  | single a ha => simp [columnName_of_lt ha]
  | append k a ha _ => simp [columnName_append ha]

/-- A short name is made of capital letters. -/
theorem isUpper_of_mem_columnName {c : Char} (hc : c ∈ columnName n) : c.isUpper := by
  induction n using columnName_induction with
  | single a ha =>
    rw [columnName_of_lt ha, List.mem_singleton] at hc
    exact hc ▸ letter_isUpper a ha
  | append k a ha ih =>
    rw [columnName_append ha, List.mem_append, List.mem_singleton] at hc
    rcases hc with hc | hc
    · exact ih hc
    · exact hc ▸ letter_isUpper a ha

theorem exists_columnName {l : List Char} (hne : l ≠ []) (hl : ∀ c ∈ l, c.isUpper) :
    ∃ n, columnName n = l := by
  induction l using List.reverseRecOn with
  | nil => exact absurd rfl hne
  | append_singleton l c ih =>
    obtain ⟨a, ha, rfl⟩ := exists_letter (hl c (by simp))
    by_cases hnil : l = []
    · subst hnil
      exact ⟨a, columnName_of_lt ha⟩
    · obtain ⟨k, rfl⟩ := ih hnil fun c hc => hl c (List.mem_append_left _ hc)
      exact ⟨_, columnName_append ha⟩

theorem shortlex_concat {l m : List Char} (h : List.Shortlex (· < ·) l m) (c d : Char) :
    List.Shortlex (· < ·) (l ++ [c]) (m ++ [d]) := by
  rcases List.shortlex_def.1 h with hlen | ⟨hlen, hlex⟩
  · exact .of_length_lt (by simpa using hlen)
  · apply List.Shortlex.of_lex (by simpa using hlen)
    clear h
    induction hlex with
    | nil => cases hlen
    | cons _ ih => exact .cons (ih (Nat.succ.inj hlen))
    | rel hlt => exact .rel hlt

theorem columnName_shortlex (h : i < j) :
    List.Shortlex (· < ·) (columnName i) (columnName j) := by
  induction j using columnName_induction generalizing i with
  | single b hb =>
    rw [columnName_of_lt (h.trans hb), columnName_of_lt hb, List.shortlex_singleton_iff]
    exact letter_lt_letter b hb i h
  | append l b hb ih =>
    rw [columnName_append hb]
    cases i using columnName_induction with
    | single a ha =>
      rw [columnName_of_lt ha]
      apply List.Shortlex.of_length_lt
      have hpos := List.length_pos_iff.2 (columnName_ne_nil l)
      simpa using hpos
    | append k a ha _ =>
      rw [columnName_append ha]
      -- Either the last letters alone are different or the names before them are in order.
      by_cases hkl : k = l
      · subst hkl
        apply List.Shortlex.append_left
        rw [List.shortlex_singleton_iff]
        exact letter_lt_letter b hb a (by omega)
      · exact shortlex_concat (ih (by omega)) _ _

theorem not_shortlex_self (l : List Char) : ¬ List.Shortlex (· < ·) l l :=
  fun h => Std.Asymm.asymm l l h h

theorem columnName_injective (h : columnName i = columnName j) : i = j := by
  rcases Nat.lt_trichotomy i j with hlt | heq | hlt
  · have hself := columnName_shortlex hlt
    rw [h] at hself
    exact absurd hself (not_shortlex_self _)
  · exact heq
  · have hself := columnName_shortlex hlt
    rw [h] at hself
    exact absurd hself (not_shortlex_self _)

theorem ofList_columnName_injective (i j : Nat)
    (h : String.ofList (columnName i) = String.ofList (columnName j)) : i = j :=
  columnName_injective (String.ofList_injective h)

theorem ofList_columnName_ne_epsilon (n : Nat) :
    String.ofList (columnName n) ≠ epsilonSymbol := by
  intro h
  have hlist := congrArg String.toList h
  rw [String.toList_ofList] at hlist
  have hε : 'ε' ∈ columnName n := by
    rw [hlist]
    decide
  exact absurd (isUpper_of_mem_columnName hε) (by decide)

end ColumnName

/-! ### The first names -/

def IsCapital (s : String) : Prop := s.toList ≠ [] ∧ ∀ c ∈ s.toList, c.isUpper

/-- The order of `A`, …, `Z`, `AA`, `AB`, … -/
def Precedes (s t : String) : Prop := List.Shortlex (· < ·) s.toList t.toList

theorem Precedes.ne (h : Precedes s t) : s ≠ t := by
  intro heq
  subst heq
  exact not_shortlex_self _ h

/-- The first ones of the names of capital letters that are not taken, in their order. -/
structure FirstNames (taken : ExtTreeSet String) (names : List String) : Prop where
  ascending : names.Pairwise Precedes
  capital : ∀ s ∈ names, IsCapital s
  free : ∀ s ∈ names, s ∉ taken
  first : ∀ s, IsCapital s → s ∉ taken → s ∉ names → ∀ t ∈ names, Precedes t s

section ShortNames

variable {vs : List String} {i j k n : Nat}

theorem precedes_columnName (h : i < j) :
    Precedes (String.ofList (columnName i)) (String.ofList (columnName j)) := by
  rw [Precedes, String.toList_ofList, String.toList_ofList]
  exact columnName_shortlex h

theorem isCapital_columnName (n : Nat) : IsCapital (String.ofList (columnName n)) := by
  rw [IsCapital, String.toList_ofList]
  exact ⟨columnName_ne_nil n, fun c => isUpper_of_mem_columnName⟩

theorem IsCapital.exists_columnName (hs : IsCapital s) :
    ∃ n, s = String.ofList (columnName n) := by
  obtain ⟨n, hn⟩ := Grammar.exists_columnName hs.1 hs.2
  exact ⟨n, by rw [hn, String.ofList_toList]⟩

theorem map_fst_shortNames (g : Grammar) (vs : List String) (n : Nat) :
    (g.shortNames vs n).map (·.1) = vs := by
  induction vs generalizing n with
  | nil => rfl
  | cons v vs ih => exact congrArg (v :: ·) (ih _)

theorem mem_shortNames (h : (v, s) ∈ g.shortNames vs n) :
    s ∉ g.terminals ∧ ∃ k ≥ n, s = String.ofList (columnName k) := by
  induction vs generalizing n with
  | nil => cases h
  | cons u vs ih =>
    have hle : n ≤ firstFree (fun n => String.ofList (columnName n)) g.terminals.toList n :=
      le_firstFree
    rcases List.mem_cons.1 h with h | h
    · cases h
      refine ⟨fun ht => ?_, _, hle, rfl⟩
      exact firstFree_not_mem ofList_columnName_injective (ExtTreeSet.mem_toList.2 ht)
    · obtain ⟨ht, k, hk, rfl⟩ := ih h
      exact ⟨ht, k, by omega, rfl⟩

theorem pairwise_shortNames : ((g.shortNames vs n).map (·.2)).Pairwise Precedes := by
  induction vs generalizing n with
  | nil => exact .nil
  | cons v vs ih =>
    apply List.pairwise_cons.2 ⟨?_, ih⟩
    intro s hs
    obtain ⟨⟨u, s⟩, hus, rfl⟩ := List.mem_map.1 hs
    obtain ⟨-, k, hk, rfl⟩ := mem_shortNames hus
    exact precedes_columnName hk

theorem nodup_shortNames : ((g.shortNames vs n).map (·.2)).Nodup :=
  pairwise_shortNames.imp Precedes.ne

/-- No short name from the given number on is passed over, unless it is a terminal. -/
theorem precedes_of_mem_shortNames (hk : n ≤ k) (hfree : String.ofList (columnName k) ∉ g.terminals)
    (hnew : String.ofList (columnName k) ∉ (g.shortNames vs n).map (·.2))
    (ht : t ∈ (g.shortNames vs n).map (·.2)) : Precedes t (String.ofList (columnName k)) := by
  induction vs generalizing n with
  | nil => cases ht
  | cons v vs ih =>
    have hlast : firstFree (fun n => String.ofList (columnName n)) g.terminals.toList n ≤ k := by
      apply Nat.le_of_not_lt
      intro hlt
      have htaken := mem_of_lt_firstFree ofList_columnName_injective hk hlt
      exact hfree (ExtTreeSet.mem_toList.1 htaken)
    obtain ⟨hne, hnew⟩ := not_or.1 fun h => hnew (List.mem_cons.2 h)
    have hlt := Nat.lt_of_le_of_ne hlast fun heq => hne (by rw [heq])
    rcases List.mem_cons.1 ht with rfl | ht
    · exact precedes_columnName hlt
    · exact ih hlt hnew ht

theorem firstNames_shortNames (g : Grammar) (vs : List String) :
    FirstNames g.terminals ((g.shortNames vs 0).map (·.2)) := by
  constructor
  case ascending => exact pairwise_shortNames
  case capital =>
    intro s hs
    obtain ⟨⟨v, s⟩, h, rfl⟩ := List.mem_map.1 hs
    obtain ⟨-, k, -, rfl⟩ := mem_shortNames h
    exact isCapital_columnName k
  case free =>
    intro s hs
    obtain ⟨⟨v, s⟩, h, rfl⟩ := List.mem_map.1 hs
    exact (mem_shortNames h).1
  case first =>
    intro s hs hfree hnew t ht
    obtain ⟨k, rfl⟩ := hs.exists_columnName
    exact precedes_of_mem_shortNames (Nat.zero_le k) hfree hnew ht

end ShortNames

end FormalLanguages.Grammar
