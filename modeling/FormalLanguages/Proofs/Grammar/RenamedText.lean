import FormalLanguages.Proofs.Grammar.ChomskyText
import FormalLanguages.Proofs.Grammar.Rename
import FormalLanguages.Proofs.Grammar.RoundTrip
import FormalLanguages.Proofs.Grammar.Trim

/-!
# The text of a trimmed grammar with short names

The short names can be written on both sides of an arrow, so that only the terminals can spoil the
text. In a trimmed grammar each of those that stand in a rule stands in a word of the language.
-/

namespace FormalLanguages.Grammar

open Std
open Text (isBlank)

variable {T : ExtTreeSet String} {g : Grammar} {t : String} {w : List String} {text : List Char}
  {c : Char}

theorem not_isBlank_of_isUpper (h : c.isUpper) : ¬ isBlank c := by
  have hrange : 'A'.val ≤ c.val ∧ c.val ≤ 'Z'.val := of_decide_eq_true h
  have hlow : 65 ≤ c.toNat := hrange.1
  have hhigh : c.toNat ≤ 90 := hrange.2
  simp only [isBlank, Bool.or_eq_true, Bool.and_eq_true, decide_eq_true_eq, beq_iff_eq]
  omega

theorem normalizeEpsilon_eq_self {s : List Char} (h : ∀ c ∈ s, ¬ isEpsilonGlyph c) :
    normalizeEpsilon s = s := by
  match s with
  | [] => rfl
  | [c] => simp [normalizeEpsilon, h c (List.mem_singleton_self c)]
  | _ :: _ :: _ => rfl

/-- None of the characters that mean something is a capital letter. -/
theorem isName_columnName (n : Nat) : IsName (String.ofList (columnName n)) := by
  have hother : ∀ {c : Char}, ¬ c.isUpper → c ∉ columnName n :=
    fun hc hmem => hc (isUpper_of_mem_columnName hmem)
  have hblank : ∀ c ∈ columnName n, ¬ isBlank c :=
    fun c hc => not_isBlank_of_isUpper (isUpper_of_mem_columnName hc)
  have hnormal : normalizeEpsilon (columnName n) = columnName n := by
    apply normalizeEpsilon_eq_self
    intro c hc hglyph
    simp only [isEpsilonGlyph, Bool.or_eq_true, beq_iff_eq] at hglyph
    rcases hglyph with rfl | rfl
    · exact hother (by decide) hc
    · exact hother (by decide) hc
  have hε : columnName n ≠ [epsilon] :=
    fun h => hother (by decide) (h ▸ List.mem_singleton_self epsilon)
  have harrow : ¬ arrow <:+: columnName n :=
    fun h => hother (c := '-') (by decide) (h.subset (by decide))
  constructor
  · constructor <;> rw [String.toList_ofList]
    · exact columnName_ne_nil n
    · exact hblank
    · rwa [hnormal]
    · exact harrow
  · constructor <;> rw [String.toList_ofList]
    · exact columnName_ne_nil n
    · exact hblank
    · exact hother (by decide)
    · exact hnormal

/-- If all words are made of words, the text says what the grammar is. -/
theorem WellFormed.writable_trim_rename (hg : g.WellFormed)
    (hwords : ∀ w, g.Derives w → ∀ t ∈ w, IsWord t) : g.trim.rename.Writable := by
  have htrim := hg.equivalent_trim
  have hname : ∀ v ∈ g.trim.vars, IsName (g.trim.newNames.getD v v) := by
    intro v hv
    obtain ⟨k, hk⟩ := htrim.wellFormed.exists_columnName hv
    rw [hk]
    exact isName_columnName k
  constructor
  · intro v hv
    obtain ⟨u, hu, rfl⟩ := htrim.wellFormed.mem_vars_rename.1 hv
    exact (hname u hu).1
  · intro v b hb s hs
    obtain ⟨u, r, hr, rfl, rfl⟩ := htrim.wellFormed.mem_rules_rename.1 hb
    obtain ⟨a, ha, rfl⟩ := List.mem_map.1 hs
    by_cases hvar : a ∈ g.trim.vars
    · exact (hname a hvar).2
    · rw [htrim.wellFormed.renaming.fixed a hvar]
      rcases htrim.wellFormed.symbol_of_mem hr ha with rfl | hterm | h
      · exact isWord_epsilon
      · rw [htrim.terminals] at hterm
        obtain ⟨w, hw, hmem⟩ := hg.exists_derives_of_mem_trim hr ha hterm
        exact hwords w hw a hmem
      · exact absurd h hvar

/-- The words of a grammar that was read are made of words. -/
theorem isWord_of_derives (hread : parse T text = .ok g) (hw : g.Derives w) (ht : t ∈ w) :
    IsWord t := by
  obtain ⟨-, -, hterm, -⟩ := exists_of_parse hread
  rcases hw.exists_rule_of_mem ht with hstart | ⟨v, b, hb, hmem⟩
  · have hT := (name_of_parse hread (start_mem_vars g)).1
    rw [← List.mem_singleton.1 hstart, ← hterm] at hT
    exact absurd (hw.mem_terminals t ht) hT
  · exact isWord_of_parse hread hb hmem

/-- The text of a trimmed grammar with short names says what the grammar derives if and only if
all its words are made of words. -/
theorem WellFormed.read_back_iff (hg : g.WellFormed) :
    (∃ h, parse g.terminals g.trim.rename.print = .ok h ∧ ∀ w, h.Derives w ↔ g.Derives w) ↔
      ∀ w, g.Derives w → ∀ t ∈ w, IsWord t := by
  have heq := hg.equivalent_trim_rename
  constructor
  · rintro ⟨h, hread, hderives⟩ w hw t ht
    exact isWord_of_derives hread ((hderives w).2 hw) ht
  · intro hwords
    obtain ⟨h, hread, hstart, hterm, -, hrules⟩ := parse_print (T := g.terminals)
      heq.wellFormed.tidy (hg.writable_trim_rename hwords)
      (fun v hv => heq.terminals ▸ heq.wellFormed.disjoint v hv)
      (fun _ _ _ _ _ ht => heq.terminals ▸ ht)
    refine ⟨h, hread, fun w => ?_⟩
    exact (derives_congr hstart (hterm.trans heq.terminals.symm) hrules).trans (heq.derives w)

end FormalLanguages.Grammar
