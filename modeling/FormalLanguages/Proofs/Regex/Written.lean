import FormalLanguages.Proofs.Regex.Language
import FormalLanguages.Proofs.Regex.Parser
import FormalLanguages.Regex.Written

/-!
# Expressions that are built as text

A label is the written form of a readable expression that is no union. The operations on texts make
labels of labels, and what is read of the result has the union, the product or the star of the
languages.
-/

namespace FormalLanguages.Regex

open Computability

variable {r s : Regex} {rest : List Char} {c : Char} {depth : Nat}

/-! ### Putting items side by side -/

/-- Items side by side, in the shape in which they are read. -/
def append : Regex → Regex → Regex
  | concat r t, s => concat r (append t s)
  | r, s => concat r s

theorem print_append : (append r s).print = r.print ++ s.print := by
  fun_induction append r s with
  | case1 r t s ih => simp [print, ih]
  | case2 => rfl

theorem language_append : (append r s).language = r.language * s.language := by
  fun_induction append r s with
  | case1 r t s ih => rw [language_concat, ih, language_concat, mul_assoc]
  | case2 => exact language_concat

theorem rank_append : (append r s).rank = 4 := by
  fun_cases append r s <;> rfl

theorem Readable.append (hr : r.Readable) (hs : s.Readable) (hr4 : r.rank ≤ 4) (hs4 : s.rank ≤ 4) :
    (append r s).Readable := by
  induction hr with
  | concat hr _ hr3 _ _ ih => exact .concat hr (ih ‹_›) hr3 rank_append.le
  | union => simp [rank] at hr4
  | epsilon => exact .concat .epsilon hs (by simp [rank]) hs4
  | letter h => exact .concat (.letter h) hs (by simp [rank]) hs4
  | group h => exact .concat (.group h) hs (by simp [rank]) hs4
  | plus h hrank => exact .concat (.plus h hrank) hs (by simp [rank]) hs4
  | star h hrank => exact .concat (.star h hrank) hs (by simp [rank]) hs4
  | option h hrank => exact .concat (.option h hrank) hs (by simp [rank]) hs4

/-! ### Parentheses around a whole text -/

theorem print_ne_nil (r : Regex) : r.print ≠ [] := by
  induction r <;> simp_all [print]

theorem ne_paren_of_isAlphanum (h : c.isAlphanum) : c ≠ '(' ∧ c ≠ ')' := by
  constructor <;> (rintro rfl; exact absurd h (by decide))

/-- Written forms are balanced. -/
theorem closesAtEnd_print (h : r.Readable) :
    Written.closesAtEnd (depth + 1) (r.print ++ rest) = Written.closesAtEnd (depth + 1) rest := by
  induction h generalizing depth rest with
  | epsilon => rfl
  | letter h =>
    have hne := ne_paren_of_isAlphanum h
    simp [print, Label.toChar, Written.closesAtEnd, hne]
  | group _ ih => simp [print, Written.closesAtEnd, ih]
  | plus _ _ ih => simp [print, Written.closesAtEnd, ih]
  | star _ _ ih => simp [print, Written.closesAtEnd, ih]
  | option _ _ ih => simp [print, Written.closesAtEnd, ih]
  | concat _ _ _ _ ihr ihs => simp [print, ihr, ihs]
  | union _ _ _ ihr ihs => simp [print, Written.closesAtEnd, ihr, ihs]

/-- Only a group is enclosed, since the parenthesis that closes a group at the beginning of a longer
text does not stand at the end. -/
theorem exists_group_of_isEnclosed (h : r.Readable)
    (henclosed : Written.isEnclosed (r.print ++ rest) = true) : rest = [] ∧ ∃ s, r = group s := by
  induction h generalizing rest with
  | epsilon => simp [print, Label.toChar, epsilon, Written.isEnclosed] at henclosed
  | letter h =>
    unfold Written.isEnclosed at henclosed
    split at henclosed
    · next heq => exact absurd (List.cons.inj heq).1 (ne_paren_of_isAlphanum h).1
    · cases henclosed
  | @group r h _ =>
    refine ⟨?_, r, rfl⟩
    simpa [print, Written.isEnclosed, closesAtEnd_print h, Written.closesAtEnd] using henclosed
  | plus _ _ ih =>
    rw [print, List.append_assoc] at henclosed
    exact absurd (ih henclosed).1 (by simp)
  | star _ _ ih =>
    rw [print, List.append_assoc] at henclosed
    exact absurd (ih henclosed).1 (by simp)
  | option _ _ ih =>
    rw [print, List.append_assoc] at henclosed
    exact absurd (ih henclosed).1 (by simp)
  | concat _ _ _ _ ih _ =>
    rw [print, List.append_assoc] at henclosed
    exact absurd (ih henclosed).1 (by simp [print_ne_nil])
  | union _ _ _ ih _ =>
    rw [print, List.append_assoc] at henclosed
    exact absurd (ih henclosed).1 (by simp)

theorem exists_literal_of_length (h : r.print.length = 1) : ∃ a, r = literal a := by
  have hpos : ∀ r : Regex, 0 < r.print.length := fun r => List.length_pos_iff.2 (print_ne_nil r)
  cases r with
  | literal a => exact ⟨a, rfl⟩
  | concat r s =>
    have hr := hpos r
    have hs := hpos s
    rw [print, List.length_append] at h
    omega
  | union r s =>
    have hr := hpos r
    rw [print, List.length_append, List.length_cons] at h
    omega
  | group r =>
    rw [print, List.length_append, List.length_cons, List.length_singleton] at h
    omega
  | _ r =>
    have hr := hpos r
    rw [print, List.length_append, List.length_singleton] at h
    omega

namespace Written

variable {t u : List Char}

/-- The text is the written form of a readable expression that is no union. -/
def IsLabel (t : List Char) : Prop := ∃ r : Regex, r.Readable ∧ r.rank ≤ 4 ∧ r.print = t

/-- The words that a text stands for, if it can be read. -/
def wordsOf (t : List Char) : Language Char := {w | ∃ r, parse t = .ok (some r) ∧ r.Matches w}

theorem wordsOf_print (h : r.Readable) : wordsOf r.print = r.language := by
  ext w
  show (∃ s, parse r.print = .ok (some s) ∧ s.Matches w) ↔ r.Matches w
  simp [parse_print h]

theorem IsLabel.exists_parse (h : IsLabel t) :
    ∃ r, parse t = .ok (some r) ∧ ∀ w, r.Matches w ↔ w ∈ wordsOf t := by
  obtain ⟨r, hr, -, rfl⟩ := h
  exact ⟨r, parse_print hr, fun w => by rw [wordsOf_print hr, mem_language]⟩

/-- There is no label for the empty language. -/
theorem IsLabel.exists_mem (h : IsLabel t) : ∃ w, w ∈ wordsOf t := by
  obtain ⟨r, hr, -, rfl⟩ := h
  rw [wordsOf_print hr]
  exact r.exists_matches

theorem isLabel_empty : IsLabel empty := ⟨literal none, .epsilon, by simp [rank], rfl⟩

theorem wordsOf_empty : wordsOf empty = 1 := by
  show wordsOf (literal none).print = _
  rw [wordsOf_print .epsilon, language_literal]
  rfl

theorem isLabel_letter (h : c.isAlphanum) : IsLabel [c] :=
  ⟨literal (some c), .letter h, by simp [rank], rfl⟩

theorem wordsOf_letter (h : c.isAlphanum) : wordsOf [c] = {[c]} := by
  show wordsOf (literal (some c)).print = _
  rw [wordsOf_print (.letter h), language_literal]
  rfl

/-- An expression that may take any suffix. -/
theorem exists_atom (h : IsLabel t) :
    ∃ r : Regex, r.Readable ∧ r.rank = 0 ∧ r.print = atom t ∧ r.language = wordsOf t := by
  obtain ⟨r, hr, -, rfl⟩ := h
  unfold atom
  rw [wordsOf_print hr]
  split
  · next hatom =>
    refine ⟨r, hr, ?_, rfl, rfl⟩
    rcases (Bool.or_eq_true _ _).mp hatom with hlength | henclosed
    · obtain ⟨a, rfl⟩ := exists_literal_of_length (by simpa using hlength)
      rfl
    · rw [← List.append_nil r.print] at henclosed
      obtain ⟨-, s, rfl⟩ := exists_group_of_isEnclosed hr henclosed
      rfl
  · exact ⟨group r, .group hr, rfl, rfl, language_group⟩

/-! What the label made by each operation stands for. -/

theorem star_spec (h : IsLabel t) : IsLabel (star t) ∧ wordsOf (star t) = (wordsOf t)∗ := by
  obtain ⟨r, hr, hrank, hprint, hlanguage⟩ := exists_atom h
  have hreadable : (Regex.star r).Readable := .star hr (by omega)
  have htext : (Regex.star r).print = star t := by
    rw [print, hprint]
    rfl
  rw [← htext, wordsOf_print hreadable, language_star, hlanguage]
  exact ⟨⟨_, hreadable, by simp [rank], rfl⟩, rfl⟩

theorem option_spec (h : IsLabel t) : IsLabel (option t) ∧ wordsOf (option t) = wordsOf t + 1 := by
  obtain ⟨r, hr, hrank, hprint, hlanguage⟩ := exists_atom h
  have hreadable : (Regex.option r).Readable := .option hr (by omega)
  have htext : (Regex.option r).print = option t := by
    rw [print, hprint]
    rfl
  rw [← htext, wordsOf_print hreadable, language_option, hlanguage]
  exact ⟨⟨_, hreadable, by simp [rank], rfl⟩, rfl⟩

theorem union_spec (ht : IsLabel t) (hu : IsLabel u) :
    IsLabel (union t u) ∧ wordsOf (union t u) = wordsOf t + wordsOf u := by
  unfold union
  split
  · next heq =>
    subst heq
    exact ⟨ht, (Language.add_self _).symm⟩
  split
  · next heq =>
    subst heq
    exact ⟨(option_spec hu).1, by rw [(option_spec hu).2, wordsOf_empty, add_comm]⟩
  split
  · next heq =>
    subst heq
    exact ⟨(option_spec ht).1, by rw [(option_spec ht).2, wordsOf_empty]⟩
  · obtain ⟨r, hr, hrank, rfl⟩ := ht
    obtain ⟨s, hs, -, rfl⟩ := hu
    have hreadable : (group (.union r s)).Readable := .group (.union hr hs hrank)
    have hprint : '(' :: r.print ++ '|' :: s.print ++ [')'] = (group (.union r s)).print := by
      simp [print]
    rw [hprint, wordsOf_print hreadable, wordsOf_print hr, wordsOf_print hs,
      language_group, language_union]
    exact ⟨⟨_, hreadable, by simp [rank], rfl⟩, rfl⟩

theorem concat_spec (ht : IsLabel t) (hu : IsLabel u) :
    IsLabel (concat t u) ∧ wordsOf (concat t u) = wordsOf t * wordsOf u := by
  unfold concat
  split
  · next heq =>
    subst heq
    exact ⟨hu, by rw [wordsOf_empty, one_mul]⟩
  split
  · next heq =>
    subst heq
    exact ⟨ht, by rw [wordsOf_empty, mul_one]⟩
  · obtain ⟨r, hr, hrank, rfl⟩ := ht
    obtain ⟨s, hs, hrank', rfl⟩ := hu
    have hreadable := hr.append hs hrank hrank'
    rw [← print_append, wordsOf_print hreadable, wordsOf_print hr, wordsOf_print hs,
      language_append]
    exact ⟨⟨_, hreadable, rank_append.le, rfl⟩, rfl⟩

end Written

end FormalLanguages.Regex
