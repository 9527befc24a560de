/-!
# Decimal numerals

Numbers are written without leading zeros. A numeral that is read may have them, and one plus
sign in front.
-/

namespace FormalLanguages.Text

def numeral (n : Nat) : List Char := Nat.toDigits 10 n

def dropPlus : List Char → List Char
  | '+' :: digits => digits
  | digits => digits

/-- The value of a numeral, if it is one and its value is not above the bound. -/
def readNumeral? (bound : Nat) (s : List Char) : Option Nat :=
  let digits := dropPlus s
  let value := Nat.ofDigitChars 10 digits 0
  if digits ≠ [] ∧ digits.all Char.isDigit ∧ value ≤ bound then some value else none

theorem isDigit_of_mem_numeral {n : Nat} {c : Char} (h : c ∈ numeral n) : c.isDigit :=
  Nat.isDigit_of_mem_toDigits (by decide) (by decide) h

theorem dropPlus_numeral (n : Nat) : dropPlus (numeral n) = numeral n := by
  unfold dropPlus
  split
  · next digits he =>
    have hplus := isDigit_of_mem_numeral (n := n) (c := '+') (by simp [he])
    exact absurd hplus (by decide)
  · rfl

theorem readNumeral?_numeral {bound n : Nat} (h : n ≤ bound) :
    readNumeral? bound (numeral n) = some n := by
  have hvalue : Nat.ofDigitChars 10 (numeral n) 0 = n := Nat.ofDigitChars_ten_toDigits
  have hne : numeral n ≠ [] := Nat.toDigits_ne_nil
  have hall : (numeral n).all Char.isDigit :=
    List.all_eq_true.2 fun _ hc => isDigit_of_mem_numeral hc
  simp [readNumeral?, dropPlus_numeral, hvalue, hne, hall, h]

end FormalLanguages.Text
