import FormalLanguages.Grammar.Basic

/-!
# Short names

Variables are renamed to `A`, `B`, … , `Z`, `AA`, `AB`, … in their order, where names that are
terminals are skipped.
-/

namespace FormalLanguages.Grammar

open Std

/-- Names in the manner of spreadsheet columns, counted from zero. -/
def columnName (n : Nat) : List Char :=
  let letter := Char.ofNat ('A'.toNat + n % 26)
  if n < 26 then [letter] else columnName (n / 26 - 1) ++ [letter]

/-- The names for some variables, taken from the `n`-th on. -/
def shortNames (g : Grammar) : List String → Nat → List (String × String)
  | [], _ => []
  | v :: vs, n =>
    let name n := String.ofList (columnName n)
    let n := firstFree name g.terminals.toList n
    (v, name n) :: shortNames g vs (n + 1)

/-- The new name of each variable. -/
def newNames (g : Grammar) : ExtTreeMap String String := .ofList (g.shortNames g.vars 0)

def rename (g : Grammar) : Grammar :=
  let names := g.newNames
  let name s := names.getD s s
  let bare : Grammar :=
    { terminals := g.terminals
      start := name g.start
      others := g.others.map name
      productions := ∅ }
  bare.addRules (g.productions.toList.flatMap fun (v, rs) =>
    rs.toList.map fun r => (name v, r.map name))

end FormalLanguages.Grammar
