import FormalLanguages.Alphabet

/-!
# Building regular expressions as text

Unions, concatenations and stars of regular expressions that are kept in their written form.
Parentheses are put where the parts would otherwise be read differently. The empty word is the
neutral element of concatenation, and its union with an expression makes that expression optional.
-/

namespace FormalLanguages.Regex.Written

/-- The text of the empty word. -/
def empty : List Char := [epsilon]

/-- Reading on inside `depth` open parentheses, the outermost one closes at the very end. -/
def closesAtEnd : Nat → List Char → Bool
  | _, [] => false
  | depth, c :: cs =>
    if c = '(' then closesAtEnd (depth + 1) cs
    else if c = ')' then if depth ≤ 1 then cs.isEmpty else closesAtEnd (depth - 1) cs
    else closesAtEnd depth cs

/-- One pair of parentheses encloses the whole text. -/
def isEnclosed : List Char → Bool
  | '(' :: cs => closesAtEnd 1 cs
  | _ => false

/-- A form of the expression to which a suffix may be attached. -/
def atom (r : List Char) : List Char :=
  if r.length = 1 || isEnclosed r then r else '(' :: r ++ [')']

def option (r : List Char) : List Char := atom r ++ ['?']

def star (r : List Char) : List Char := atom r ++ ['*']

def union (r s : List Char) : List Char :=
  if r = s then r
  else if r = empty then option s
  else if s = empty then option r
  else '(' :: r ++ '|' :: s ++ [')']

def concat (r s : List Char) : List Char :=
  if r = empty then s else if s = empty then r else r ++ s

end FormalLanguages.Regex.Written
