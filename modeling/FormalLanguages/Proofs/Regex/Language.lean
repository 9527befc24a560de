import FormalLanguages.Regex.Basic
import Mathlib.Computability.Language

/-!
# Languages of regular expressions

Every constructor of expressions is an operation on languages.
-/

namespace FormalLanguages.Regex

open Computability

def language (r : Regex) : Language Char := {w | r.Matches w}

/-- What a text stands for that was read as the given expression, or that had no token. -/
def meaning : Option Regex → Language Char
  | some r => r.language
  | none => 1

variable {r s : Regex} {w : List Char} {a : Label}

theorem mem_language : w ∈ r.language ↔ r.Matches w := Iff.rfl

theorem language_literal : (literal a).language = {a.toList} := by
  ext w
  constructor
  · intro h
    cases h <;> rfl
  · rintro rfl
    cases a with
    | none => exact .epsilon
    | some c => exact .char c

theorem language_concat : (concat r s).language = r.language * s.language := by
  ext w
  constructor
  · rintro ⟨⟩
    exact Language.append_mem_mul ‹_› ‹_›
  · rintro ⟨u, hu, v, hv, rfl⟩
    exact .concat hu hv

theorem language_union : (union r s).language = r.language + s.language := by
  ext w
  constructor
  · rintro (_ | _ | _ | h | h)
    · exact .inl h
    · exact .inr h
  · rintro (h | h)
    · exact .unionLeft h
    · exact .unionRight h

theorem language_option : (option r).language = r.language + 1 := by
  ext w
  constructor
  · intro h
    cases h with
    | optionNone => exact .inr rfl
    | optionSome h => exact .inl h
  · rintro (h | rfl)
    · exact .optionSome h
    · exact .optionNone

theorem language_star : (star r).language = r.language∗ := by
  ext w
  rw [Language.mem_kstar]
  constructor
  · intro h
    generalize he : star r = e at h
    induction h with
    | starNil => exact ⟨[], rfl, by simp⟩
    | starCons hu _ _ ih =>
      obtain ⟨ws, rfl, hws⟩ := ih he
      cases he
      exact ⟨_ :: ws, rfl, List.forall_mem_cons.2 ⟨hu, hws⟩⟩
    | _ => cases he
  · rintro ⟨ws, rfl, hws⟩
    induction ws with
    | nil => exact .starNil
    | cons u ws ih =>
      obtain ⟨hu, hws⟩ := List.forall_mem_cons.1 hws
      exact .starCons hu (ih hws)

theorem language_plus : (plus r).language = r.language * r.language∗ := by
  rw [← language_star]
  ext w
  constructor
  · intro h
    cases h with
    | plus hu hv => exact Language.append_mem_mul hu hv
  · rintro ⟨u, hu, v, hv, rfl⟩
    exact .plus hu hv

theorem language_group : (group r).language = r.language := by
  ext w
  constructor
  · rintro ⟨⟩
    assumption
  · exact .group

theorem exists_matches (r : Regex) : ∃ w, r.Matches w := by
  induction r with
  | literal a =>
    cases a with
    | none => exact ⟨[], .epsilon⟩
    | some c => exact ⟨[c], .char c⟩
  | concat r s ihr ihs =>
    obtain ⟨v, hv⟩ := ihr
    obtain ⟨w, hw⟩ := ihs
    exact ⟨v ++ w, .concat hv hw⟩
  | union r s ihr _ => exact ihr.imp fun _ h => .unionLeft h
  | option r _ => exact ⟨[], .optionNone⟩
  | star r _ => exact ⟨[], .starNil⟩
  | plus r ih => exact ih.imp fun w h => by simpa using Matches.plus h .starNil
  | group r ih => exact ih.imp fun _ h => .group h

end FormalLanguages.Regex
