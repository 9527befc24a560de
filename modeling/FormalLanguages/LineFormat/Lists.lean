import FormalLanguages.Alphabet
import FormalLanguages.State
import FormalLanguages.Text.Blank
import FormalLanguages.Text.Numeral

/-!
# Lists of letters, terminals and states

The parts of an automaton that are written as comma-separated items.
-/

namespace FormalLanguages.LineFormat

open Text

/-- Each letter is one character, and not one that stands for the empty word. -/
def readAlphabet (text : List Char) : Except Error Alphabet :=
  let letters := items text
  if letters.all fun item => item.length = 1 && !item.any isEpsilonGlyph then
    .ok (.ofList letters.flatten)
  else .error (.malformedAlphabet (.ofList text))

/-- A terminal may have several characters. -/
def readTerminals (text : List Char) : Std.ExtTreeSet String :=
  .ofList ((items text).map String.ofList)

def readState (text : List Char) : Except Error State :=
  match readNumeral? State.last (trim text) with
  | some q => .ok q
  | none => .error (.malformedStateList (.ofList text))

end FormalLanguages.LineFormat
