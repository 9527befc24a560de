import FormalLanguages.Automaton.Dfa

/-!
# The shortest accepted word

The states are visited level by level, each with the least of the shortest words that lead to it:
a level holds the states first reached by words of one length, in the order of those words.
-/

namespace FormalLanguages.Dfa

/-- A state with a word that leads to it, written backwards. -/
abbrev Visit := State × List Char

/-- Adds the state after one more character to the level being made, if it is new. -/
def visitNext (d : Dfa) (v : Visit) (s : StateSet × List Visit) (c : Char) :
    StateSet × List Visit :=
  match d.next? v.1 c with
  | some r => if r ∈ s.1 then s else (s.1.insert r, (r, c :: v.2) :: s.2)
  | none => s

/-- The states visited so far and the next level, the greatest word first. -/
def nextLevel (d : Dfa) (seen : StateSet) (level : List Visit) : StateSet × List Visit :=
  level.foldl (fun s v => d.alphabet.toList.foldl (d.visitNext v) s) (seen, [])

def searchLevels (d : Dfa) : Nat → StateSet → List Visit → Option (List Char)
  | 0, _, _ => none
  | _ + 1, _, [] => none
  | bound + 1, seen, level =>
    match level.find? (·.1 ∈ d.accept) with
    | some v => some v.2.reverse
    | none =>
      let (seen, above) := d.nextLevel seen level
      searchLevels d bound seen above.reverse

/-- Of the accepted words the shortest, and of those the least. Every level but the first and the
last has a state of its own that some move leads to, which bounds their number. -/
def shortest? (d : Dfa) : Option (List Char) :=
  d.searchLevels (d.moves.size + 2) {d.start} [(d.start, [])]

end FormalLanguages.Dfa
