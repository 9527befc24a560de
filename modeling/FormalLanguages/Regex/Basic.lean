import FormalLanguages.Alphabet

/-!
# Regular expressions

The tree of a regular expression, its written form, and the words it stands for. A group is kept
in the tree, so that the written form has exactly the parentheses that were read.
-/

namespace FormalLanguages

inductive Regex where
  | literal (label : Label)
  | concat (left right : Regex)
  | union (left right : Regex)
  | option (inner : Regex)
  | star (inner : Regex)
  | plus (inner : Regex)
  | group (inner : Regex)
deriving DecidableEq, Repr

namespace Regex

/-- The written form. No parentheses are added, and none are left out. -/
def print : Regex → List Char
  | literal a => [a.toChar]
  | concat r s => print r ++ print s
  | union r s => print r ++ '|' :: print s
  | option r => print r ++ ['?']
  | star r => print r ++ ['*']
  | plus r => print r ++ ['+']
  | group r => '(' :: print r ++ [')']

/-- `r.Matches w`: the word `w` belongs to the language of `r`. -/
inductive Matches : Regex → List Char → Prop
  | epsilon : Matches (literal none) []
  | char (c : Char) : Matches (literal (some c)) [c]
  | concat {r s v w} : Matches r v → Matches s w → Matches (concat r s) (v ++ w)
  | unionLeft {r s w} : Matches r w → Matches (union r s) w
  | unionRight {r s w} : Matches s w → Matches (union r s) w
  | optionNone {r} : Matches (option r) []
  | optionSome {r w} : Matches r w → Matches (option r) w
  | starNil {r} : Matches (star r) []
  | starCons {r v w} : Matches r v → Matches (star r) w → Matches (star r) (v ++ w)
  | plus {r v w} : Matches r v → Matches (star r) w → Matches (plus r) (v ++ w)
  | group {r w} : Matches r w → Matches (group r) w

end Regex

end FormalLanguages
