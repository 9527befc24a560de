import FormalLanguages.Text.Printable

/-!
# Quoted text

A text is shown between double quotes, so that it fits on one line and every character of it can
be seen.
-/

namespace FormalLanguages.Text

/-- How one character is written inside double quotes. -/
def quoteChar (c : Char) : List Char :=
  match c with
  | '"' => ['\\', '"']
  | '\\' => ['\\', '\\']
  | '\n' => ['\\', 'n']
  | '\r' => ['\\', 'r']
  | '\t' => ['\\', 't']
  | '\x00' => ['\\', '0']
  | c =>
    if isPrintable c then [c]
    else ['\\', 'u', '\x7b'] ++ Nat.toDigits 16 c.toNat ++ ['\x7d']

def quote (s : List Char) : List Char := '"' :: s.flatMap quoteChar ++ ['"']

def quoteString (s : String) : String := String.ofList (quote s.toList)

end FormalLanguages.Text
