import Std.Data.ExtTreeSet

/-!
# Letters, labels and the empty word

The empty word is written `ε`, or `~` on a plain keyboard. A label of an automaton is one input
character or nothing at all; an alphabet is a set of input characters.
-/

namespace FormalLanguages

abbrev Alphabet := Std.ExtTreeSet Char

def epsilon : Char := 'ε'

/-- The empty word as a symbol of a grammar rule. -/
def epsilonSymbol : String := "ε"

def isEpsilonGlyph (c : Char) : Bool := c == 'ε' || c == '~'

/-- Either glyph for the empty word, standing alone, is written `ε`. -/
def normalizeEpsilon : List Char → List Char
  | [c] => if isEpsilonGlyph c then [epsilon] else [c]
  | s => s

/-- One input character, or `none` for a move that reads nothing. -/
abbrev Label := Option Char

namespace Label

def ofChar (c : Char) : Label := if isEpsilonGlyph c then none else some c

def toChar (a : Label) : Char := a.getD epsilon

end Label

end FormalLanguages
