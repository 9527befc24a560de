import FormalLanguages.Proofs.Regex.Parser

/-!
# Printing undoes reading

What a reader holds, written out again, is what it has read, since each token adds its own text at
the end. So the written form of an expression is the text it was read from, less the characters that
are skipped.
-/

namespace FormalLanguages.Regex

variable {r : Regex} {text : List Char} {t : Token} {c : Char}

/-! ### The characters that are not skipped -/

/-- How a character is written again, if it is not skipped. -/
def keptChar? (c : Char) : Option Char :=
  if c.isAlphanum || ['(', ')', '*', '+', '|', '?'].contains c then some c
  else if isEpsilonGlyph c then some epsilon
  else none

/-- The text without the characters that are skipped, where either glyph for the empty word is
written `ε`. -/
def kept (text : List Char) : List Char := text.filterMap keptChar?

/-- A character is skipped, or it is a token and is written as a character for the same token. -/
theorem skipped_or_token (c : Char) : Token.ofChar? c = none ∧ keptChar? c = none ∨
    ∃ t d, Token.ofChar? c = some t ∧ keptChar? c = some d ∧ t.text.toList = [d] ∧
      Token.ofChar? d = some t := by
  by_cases hoperator : c ∈ ['(', ')', '*', '+', '|', '?']
  · right
    simp only [List.mem_cons, List.not_mem_nil, or_false] at hoperator
    rcases hoperator with rfl | rfl | rfl | rfl | rfl | rfl <;>
      exact ⟨_, _, rfl, rfl, by decide, rfl⟩
  by_cases halphanum : c.isAlphanum
  · have htoken := ofChar?_of_isAlphanum halphanum
    exact .inr ⟨_, c, htoken, by simp [keptChar?, halphanum], by simp [Token.text, Label.toChar],
      htoken⟩
  by_cases hglyph : c = 'ε' ∨ c = '~'
  · right
    rcases hglyph with rfl | rfl <;>
      exact ⟨.symbol none, 'ε', by decide, by decide, by decide, by decide⟩
  · left
    have hε : isEpsilonGlyph c = false := by simpa [isEpsilonGlyph] using hglyph
    constructor
    · unfold Token.ofChar?
      split
      case h_7 => simp [halphanum, hε]
      all_goals simp at hoperator
    · simp only [keptChar?, halphanum, hε]
      simpa using hoperator

theorem kept_eq (text : List Char) : kept text = (tokens text).flatMap fun t => t.text.toList := by
  induction text with
  | nil => rfl
  | cons c text ih =>
    rcases skipped_or_token c with ⟨htoken, hkept⟩ | ⟨t, d, htoken, hkept, htext, -⟩
    · rw [kept, tokens, List.filterMap_cons_none hkept, List.filterMap_cons_none htoken]
      exact ih
    · rw [kept, List.filterMap_cons_some hkept, tokens_cons htoken, List.flatMap_cons, htext]
      exact congrArg (d :: ·) ih

theorem tokens_kept (text : List Char) : tokens (kept text) = tokens text := by
  rw [tokens, kept, List.filterMap_filterMap]
  apply congrArg (List.filterMap · text)
  funext c
  rcases skipped_or_token c with ⟨htoken, hkept⟩ | ⟨t, d, htoken, hkept, -, hd⟩
  · rw [hkept, htoken, Option.bind_none]
  · rw [hkept, htoken, Option.bind_some, hd]

/-! ### What has been read -/

theorem print_foldl_concat (items : List Regex) (r : Regex) :
    (items.foldl (fun r item => concat item r) r).print =
      items.reverse.flatMap print ++ r.print := by
  induction items generalizing r with
  | nil => rfl
  | cons item items ih => simp [ih, print]

theorem print_foldl_union (alternatives : List Regex) (r : Regex) :
    (alternatives.foldl (fun r alternative => union alternative r) r).print =
      alternatives.reverse.flatMap (fun alternative => alternative.print ++ ['|']) ++ r.print := by
  induction alternatives generalizing r with
  | nil => rfl
  | cons alternative alternatives ih => simp [ih, print]

namespace Before

variable {b : Before}

/-- What stands before an item, written out. -/
def written (b : Before) : List Char :=
  b.alternatives.reverse.flatMap (fun alternative => alternative.print ++ ['|']) ++
    b.items.reverse.flatMap print

theorem written_cons (b : Before) (r : Regex) :
    written { b with items := r :: b.items } = b.written ++ r.print := by
  simp [written]

theorem print_close (b : Before) (r : Regex) : (b.close r).print = b.written ++ r.print := by
  rw [close, join, print_foldl_union, print_foldl_concat, written, List.append_assoc]

end Before

namespace Reader

variable {R R' : Reader}

def written (R : Reader) : List Char :=
  R.outer.reverse.flatMap (fun b => b.written ++ ['(']) ++ R.before.written

theorem written_holding (outer : List Before) (b : Before) (last : Regex) (suffix : Suffix) :
    (holding outer b last suffix).written =
      outer.reverse.flatMap (fun b => b.written ++ ['(']) ++ (b.written ++ last.print) := by
  rw [written, before, Before.written_cons]
  rfl

theorem written_pipe (h : R.step .pipe = .ok R') : R'.written = R.written ++ ['|'] := by
  cases R with
  | expecting => cases h
  | holding outer b last suffix =>
    obtain rfl := Except.ok.inj h
    rw [written_holding]
    simp [written, Reader.outer, before, Before.written, Before.print_close]

theorem written_rightParen (h : R.step .rightParen = .ok R') :
    R'.written = R.written ++ [')'] := by
  cases R with
  | expecting => cases h
  | holding outer b last suffix =>
    cases outer with
    | nil => cases h
    | cons b' outer =>
      obtain rfl := Except.ok.inj h
      rw [written_holding, written_holding]
      simp [print, Before.print_close]

theorem print_suffix {next : Suffix} {f : Regex → Regex} (ht : suffix? t = some (next, f)) :
    (f r).print = r.print ++ t.text.toList := by
  cases t with
  | plus | asterisk | questionMark =>
    obtain ⟨rfl, rfl⟩ := Prod.mk.inj (Option.some.inj ht)
    rfl
  | _ => cases ht

theorem written_suffix {next : Suffix} {f : Regex → Regex} (ht : suffix? t = some (next, f))
    (h : R.step t = .ok R') : R'.written = R.written ++ t.text.toList := by
  cases R with
  | expecting =>
    cases t with
    | plus | asterisk | questionMark => cases h
    | _ => cases ht
  | holding outer b last suffix =>
    obtain ⟨-, rfl⟩ := step_suffix ht h
    simp only [written_holding, print_suffix ht, List.append_assoc]

/-- Each token that is read adds its text. -/
theorem written_step (h : R.step t = .ok R') : R'.written = R.written ++ t.text.toList := by
  cases t with
  | symbol a =>
    rw [step_symbol] at h
    obtain rfl := Except.ok.inj h
    rw [written_holding, written]
    simp [print, Token.text]
  | leftParen =>
    rw [step_leftParen] at h
    obtain rfl := Except.ok.inj h
    simp [written, outer, before, Before.written, Token.text]
  | pipe => exact written_pipe h
  | rightParen => exact written_rightParen h
  | plus | asterisk | questionMark => exact written_suffix rfl h
  | endOfInput => cases R <;> cases h

theorem written_read (h : R.read text = .ok R') : R'.written = R.written ++ kept text := by
  rw [kept_eq]
  unfold read at h
  generalize tokens text = ts at h
  induction ts generalizing R with
  | nil =>
    obtain rfl := Except.ok.inj h
    exact (List.append_nil _).symm
  | cons t ts ih =>
    rw [List.foldlM_cons] at h
    obtain ⟨R₁, hstep, hread⟩ := exists_of_bind_eq_ok h
    rw [ih hread, written_step hstep, List.flatMap_cons, List.append_assoc]

theorem print_finish (h : R.finish = .ok r) : r.print = R.written := by
  cases R with
  | expecting => cases h
  | holding outer b last suffix =>
    cases outer with
    | cons => cases h
    | nil =>
      obtain rfl := Except.ok.inj h
      rw [written_holding, Before.print_close]
      rfl

end Reader

/-! ### Back and forth -/

theorem print_of_parse (h : parse text = .ok (some r)) : r.print = kept text := by
  obtain ⟨R, hread, hfinish⟩ := exists_read_of_parse h
  rw [Reader.print_finish hfinish, Reader.written_read hread]
  rfl

/-- The characters that are skipped make no difference. -/
theorem parse_kept (text : List Char) : parse (kept text) = parse text := by
  rw [parse, parse, lex, lex, tokens_kept]

/-- A text is read as an expression if and only if the expression is readable and its written form
is the text without the characters that are skipped. So it is read again from its written form, and
the expressions that are read from their written forms are the readable ones. -/
theorem parse_eq_some_iff_print (text : List Char) (r : Regex) :
    (parse text = .ok (some r) ↔ r.Readable ∧ r.print = kept text) ∧
      (parse r.print = .ok (some r) ↔ r.Readable) := by
  refine ⟨⟨fun h => ⟨readable_of_parse h, print_of_parse h⟩, ?_⟩, readable_of_parse, parse_print⟩
  rintro ⟨hr, hprint⟩
  rw [← parse_kept, ← hprint]
  exact parse_print hr

end FormalLanguages.Regex
