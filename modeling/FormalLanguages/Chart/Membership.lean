import FormalLanguages.Chart.Basic

/-!
# Membership

A sequence of tokens is read column by column. It belongs to the language if the last column has
the item that says so.
-/

namespace FormalLanguages

namespace Chart

/-- Reads on after the given columns and the present one. -/
def readOn (c : Chart) : Array Column → Column → List String → Bool
  | _, column, [] => stopItem ∈ column
  | columns, column, t :: ts =>
    match (c.scans column)[t]? with
    | some items =>
      let columns := columns.push column
      readOn c columns (c.close columns items) ts
    | none => false

def reads (c : Chart) (tokens : List String) : Bool := c.readOn #[] c.first tokens

end Chart

namespace Grammar

def accepts (g : Grammar) (tokens : List String) : Bool := (Chart.ofGrammar g).reads tokens

/-- The tokens of a text are its characters. -/
def acceptsText (g : Grammar) (text : List Char) : Bool :=
  g.accepts (text.map Char.toString)

end Grammar

end FormalLanguages
