/-!
# Blank characters, lines and fields

Text is read as a list of characters. Blank characters are those with the Unicode property
White_Space; a text is cut into lines, into blank-separated fields, or into comma-separated items.
-/

namespace FormalLanguages.Text

/-- The Unicode property White_Space. -/
def isBlank (c : Char) : Bool :=
  let n := c.toNat
  (0x9 ≤ n && n ≤ 0xD) || n == 0x20 || n == 0x85 || n == 0xA0 || n == 0x1680 ||
    (0x2000 ≤ n && n ≤ 0x200A) || n == 0x2028 || n == 0x2029 || n == 0x202F || n == 0x205F ||
    n == 0x3000

def trimStart (s : List Char) : List Char := s.dropWhile isBlank

def trimEnd (s : List Char) : List Char := (s.reverse.dropWhile isBlank).reverse

def trim (s : List Char) : List Char := trimEnd (trimStart s)

/-- The pieces between the separators: always one more than there are separators. -/
def split (isSeparator : Char → Bool) : List Char → List (List Char)
  | [] => [[]]
  | c :: cs =>
    if isSeparator c then [] :: split isSeparator cs
    else match split isSeparator cs with
      | [] => [[c]]
      | piece :: pieces => (c :: piece) :: pieces

/-- The text before and the text after the first occurrence of a nonempty mark. -/
def cut (mark : List Char) : List Char → Option (List Char × List Char)
  | [] => none
  | c :: cs =>
    if mark.isPrefixOf (c :: cs) then some ([], (c :: cs).drop mark.length)
    else (cut mark cs).map fun (before, after) => (c :: before, after)

/-- Maximal runs of characters that are not blank. -/
def fields (s : List Char) : List (List Char) := (split isBlank s).filter (· ≠ [])

/-- A carriage return before a line feed stays at the end of its line, where it is blank. -/
def lines (s : List Char) : List (List Char) := split (· == '\n') s

/-- The lines that hold something, without the blanks around it. -/
def contentLines (s : List Char) : List (List Char) := ((lines s).map trim).filter (· ≠ [])

/-- Comma-separated items without the blanks around them; empty items do not count. -/
def items (s : List Char) : List (List Char) := ((split (· == ',') s).map trim).filter (· ≠ [])

end FormalLanguages.Text
