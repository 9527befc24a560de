import FormalLanguages.Error
import FormalLanguages.Regex.Basic
import FormalLanguages.Regex.Token

/-!
# Reading regular expressions

Expressions are read by descent, one function for each level of the grammar:

    union   = concat ('|' union)?
    concat  = option concat?
    option  = star '?'?
    star    = plus '*'?
    plus    = primary '+'?
    primary = '(' union ')' | symbol

Concatenation has no operator: unless the tokens end or a `)` or `|` comes next, another item must
follow. A list of tokens ends where its first end of input stands, or after its last token.
-/

namespace FormalLanguages.Regex

/-- The next token. -/
def peek (ts : List Token) : Token := ts.headD .endOfInput

/-- An expression at the front of some tokens, and the tokens after it. -/
structure Parsed (ts : List Token) where
  regex : Regex
  rest : List Token
  shorter : rest.length < ts.length

def unexpected {α : Type} (t : Token) : Except Error α := .error (.unexpectedToken t.text)

namespace Parsed

variable {ts : List Token}

theorem length_tail_lt (p : Parsed ts) : p.rest.tail.length < ts.length :=
  Nat.lt_of_le_of_lt (by simp) p.shorter

/-- Takes in a mark, if it comes next. -/
def suffix (p : Parsed ts) (mark : Token) (wrap : Regex → Regex) : Parsed ts :=
  if peek p.rest = mark then ⟨wrap p.regex, p.rest.tail, p.length_tail_lt⟩ else p

end Parsed

mutual

def readUnion (ts : List Token) : Except Error (Parsed ts) := do
  let p ← readConcat ts
  if peek p.rest = .pipe then
    let q ← readUnion p.rest.tail
    return ⟨union p.regex q.regex, q.rest, Nat.lt_trans q.shorter p.length_tail_lt⟩
  else return p
termination_by 6 * ts.length + 5
decreasing_by
  · omega
  · have := p.length_tail_lt
    omega

def readConcat (ts : List Token) : Except Error (Parsed ts) := do
  let p ← readOption ts
  match peek p.rest with
  | .endOfInput | .rightParen | .pipe => return p
  | _ =>
    let q ← readConcat p.rest
    return ⟨concat p.regex q.regex, q.rest, Nat.lt_trans q.shorter p.shorter⟩
termination_by 6 * ts.length + 4
decreasing_by
  · omega
  · have := p.shorter
    omega

def readOption (ts : List Token) : Except Error (Parsed ts) := do
  return (← readStar ts).suffix .questionMark option
termination_by 6 * ts.length + 3

def readStar (ts : List Token) : Except Error (Parsed ts) := do
  return (← readPlus ts).suffix .asterisk star
termination_by 6 * ts.length + 2

def readPlus (ts : List Token) : Except Error (Parsed ts) := do
  return (← readPrimary ts).suffix .plus plus
termination_by 6 * ts.length + 1

def readPrimary (ts : List Token) : Except Error (Parsed ts) :=
  match ts with
  | .leftParen :: ts => do
    let p ← readUnion ts
    if peek p.rest = .rightParen then
      return ⟨group p.regex, p.rest.tail, Nat.lt_succ_of_lt p.length_tail_lt⟩
    else .error .unmatchedParen
  | .symbol a :: ts => return ⟨literal a, ts, Nat.lt_succ_self _⟩
  | ts => unexpected (peek ts)
termination_by 6 * ts.length
decreasing_by
  rw [List.length_cons]
  omega

end

/-- Reads the tokens up to the end of input. -/
def ofTokens (ts : List Token) : Except Error Regex := do
  let p ← readUnion ts
  match peek p.rest with
  | .endOfInput => return p.regex
  | .rightParen => .error .unmatchedParen
  | t => unexpected t

/-- Reads a text; none of its characters may be a token, and then there is no expression. -/
def parse (text : List Char) : Except Error (Option Regex) :=
  if tokens text = [] then .ok none else some <$> ofTokens (lex text)

end FormalLanguages.Regex
