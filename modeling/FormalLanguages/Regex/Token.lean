import FormalLanguages.Alphabet

/-!
# Tokens of regular expressions

The letters and digits of ASCII stand for themselves, either glyph for the empty word stands for
it, and there are six operators. All other characters are skipped. A token list ends with a token
of its own.
-/

namespace FormalLanguages.Regex

inductive Token where
  | leftParen
  | rightParen
  | asterisk
  | pipe
  | questionMark
  | plus
  | symbol (label : Label)
  | endOfInput
deriving DecidableEq, Repr

namespace Token

def ofChar? (c : Char) : Option Token :=
  match c with
  | '(' => some leftParen
  | ')' => some rightParen
  | '*' => some asterisk
  | '+' => some plus
  | '|' => some pipe
  | '?' => some questionMark
  | c =>
    if c.isAlphanum then some (symbol (some c))
    else if isEpsilonGlyph c then some (symbol none)
    else none

def text : Token → String
  | leftParen => "("
  | rightParen => ")"
  | asterisk => "*"
  | pipe => "|"
  | questionMark => "?"
  | plus => "+"
  | symbol a => a.toChar.toString
  | endOfInput => "end of input"

end Token

/-- The tokens of a text, the end left out. -/
def tokens (text : List Char) : List Token := text.filterMap Token.ofChar?

def lex (text : List Char) : List Token := tokens text ++ [.endOfInput]

end FormalLanguages.Regex
