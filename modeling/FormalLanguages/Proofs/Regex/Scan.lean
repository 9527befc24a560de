import FormalLanguages.Proofs.Regex.Reader

/-!
# Counting parentheses is enough

Whether some tokens can be read, and what is wrong with them if not, is found by a scan that builds
no expression. It counts the open parentheses and remembers whether an item is due or which suffix
the last one has. The scan is what is left of a reader when the expressions in it are forgotten.
-/

namespace FormalLanguages.Regex

/-- What a scan knows of the item at which it stands. -/
inductive Place where
  /-- An item is due. -/
  | operand
  | primary
  | plus
  | star
  | option
deriving DecidableEq, Repr

/-- After an item, the suffixes that are still allowed in the order `+`, `*`, `?`. -/
def Place.suffix? : Place → Token → Option Place
  | .primary, .plus => some .plus
  | .primary, .asterisk | .plus, .asterisk => some .star
  | .primary, .questionMark | .plus, .questionMark | .star, .questionMark => some .option
  | _, _ => none

structure Scan where
  /-- How many parentheses are open. -/
  depth : Nat
  place : Place
deriving DecidableEq, Repr

namespace Scan

def start : Scan := ⟨0, .operand⟩

def step : Scan → Token → Except Error Scan
  | ⟨depth, .operand⟩, t =>
    match t with
    | .symbol _ => .ok ⟨depth, .primary⟩
    | .leftParen => .ok ⟨depth + 1, .operand⟩
    | t => unexpected t
  | ⟨depth, place⟩, t =>
    match t with
    | .symbol _ => .ok ⟨depth, .primary⟩
    | .leftParen => .ok ⟨depth + 1, .operand⟩
    | .pipe => .ok ⟨depth, .operand⟩
    | .rightParen =>
      match depth with
      | 0 => .error .unmatchedParen
      | depth + 1 => .ok ⟨depth, .primary⟩
    | t =>
      match place.suffix? t with
      | some place => .ok ⟨depth, place⟩
      | none => unexpected t

def finish : Scan → Except Error Unit
  | ⟨_, .operand⟩ => unexpected .endOfInput
  | ⟨0, _⟩ => .ok ()
  | ⟨_ + 1, _⟩ => .error .unmatchedParen

end Scan

/-- Scans the tokens up to the first end of input, or all of them if it is missing. -/
def scan (ts : List Token) : Except Error Unit := do
  (← (ts.takeWhile (· ≠ .endOfInput)).foldlM Scan.step .start).finish

def Suffix.place : Suffix → Place
  | .bare => .primary
  | .plus => .plus
  | .star => .star
  | .option => .option

namespace Reader

/-- What is left of a reader when its expressions are forgotten. -/
def forget : Reader → Scan
  | expecting outer _ => ⟨outer.length, .operand⟩
  | holding outer _ _ suffix => ⟨outer.length, suffix.place⟩

theorem map_forget_step (R : Reader) (t : Token) : (R.step t).map forget = R.forget.step t := by
  cases R with
  | expecting outer alternatives => cases t <;> rfl
  | holding outer b last suffix =>
    cases t with
    | rightParen => cases outer <;> cases suffix <;> rfl
    | _ => cases suffix <;> rfl

theorem map_forget_foldlM (R : Reader) (ts : List Token) :
    (ts.foldlM step R).map forget = ts.foldlM Scan.step R.forget := by
  induction ts generalizing R with
  | nil => rfl
  | cons t ts ih =>
    rw [List.foldlM_cons, List.foldlM_cons, ← map_forget_step]
    cases R.step t with
    | error e => rfl
    | ok R' => exact ih R'

theorem map_finish (R : Reader) : R.finish.map (fun _ => ()) = R.forget.finish := by
  cases R with
  | expecting outer alternatives => rfl
  | holding outer b last suffix => cases outer <;> cases suffix <;> rfl

end Reader

/-- Tokens are read by descent if and only if the scan comes to its end, and if they are not, the
error is that of the scan. -/
theorem ofTokens_verdict_eq_scan (ts : List Token) :
    (ofTokens ts).map (fun _ => ()) = scan ts := by
  rw [ofTokens_eq_run, Reader.run_eq_foldlM]
  have h := Reader.map_forget_foldlM .start (ts.takeWhile (· ≠ .endOfInput))
  rw [scan]
  show _ = Except.bind (List.foldlM Scan.step Reader.start.forget _) _
  rw [← h]
  cases (ts.takeWhile (· ≠ .endOfInput)).foldlM Reader.step .start with
  | error e => rfl
  | ok R => exact R.map_finish

/-- A parenthesis that was not opened is unmatched after an item and unexpected where one is due. -/
example : scan [.symbol none, .rightParen] = .error .unmatchedParen ∧
    scan [.rightParen] = .error (.unexpectedToken ")") :=
  ⟨rfl, rfl⟩

end FormalLanguages.Regex
