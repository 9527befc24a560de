import FormalLanguages.Text.Quoted

/-!
# Failures

Every way in which a request can fail, with the sentence that tells the reader about it.
-/

namespace FormalLanguages

inductive Error where
  /-- The regular expression has this token where it cannot stand. -/
  | unexpectedToken (found : String)
  | unmatchedParen
  | malformedProduction (line : String)
  | malformedEdge (line : String)
  | malformedStateList (text : String)
  | malformedAlphabet (text : String)
  | internal (reason : String)
  /-- Every state number is taken. -/
  | outOfStates
deriving DecidableEq, Repr

namespace Error

def message : Error → String
  | unexpectedToken found => "parse failure: unexpected token " ++ Text.quoteString found
  | unmatchedParen => "parse failure: unmatched parenthesis"
  | malformedProduction line => "parse failure: malformed production " ++ Text.quoteString line
  | malformedEdge line => "parse failure: malformed edge " ++ Text.quoteString line
  | malformedStateList text => "parse failure: malformed state list " ++ Text.quoteString text
  | malformedAlphabet text => "parse failure: malformed alphabet " ++ Text.quoteString text
  | internal reason => "internal error: " ++ reason
  | outOfStates => "no state number is left"

end Error

end FormalLanguages
