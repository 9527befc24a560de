import FormalLanguages.Automaton.Shortest
import FormalLanguages.Proofs.Automaton.Runs
import FormalLanguages.Proofs.Sets
import Mathlib.Data.Char
import Mathlib.Data.List.Shortlex

/-!
# The search finds the least accepted word

Shorter words come first, and words of one length are in the order of their characters. A level of
the search has a least word for every state that no shorter word leads to. As long as levels are not
empty each has a state that was not met before, so that the search ends by itself.
-/

namespace FormalLanguages

open Std

/-- The least word of a language, shorter words first, or `none` if it has no word. -/
inductive IsLeast? (L : Language Char) : Option (List Char) → Prop
  | found {w : List Char} (mem : w ∈ L) (least : ∀ v ∈ L, v = w ∨ List.Shortlex (· < ·) w v) :
    IsLeast? L (some w)
  | missing (empty : ∀ w, w ∉ L) : IsLeast? L none

theorem IsLeast?.eq_none_iff {L : Language Char} {w? : Option (List Char)}
    (h : IsLeast? L w?) : w? = none ↔ ∀ w, w ∉ L := by
  cases h with
  | found hmem _ => exact iff_of_false (Option.some_ne_none _) fun hempty => hempty _ hmem
  | missing hempty => exact iff_of_true rfl hempty

/-- No word is less than the empty one. -/
theorem IsLeast?.eq_some_nil {L : Language Char} {w? : Option (List Char)} (h : IsLeast? L w?)
    (hnil : [] ∈ L) : w? = some [] := by
  cases h with
  | found _ hleast => exact congrArg some ((hleast [] hnil).resolve_right (by simp)).symm
  | missing hempty => exact absurd hnil (hempty [])

theorem append_lt_append {u v : List Char} (h : u < v) (hlength : u.length = v.length)
    (x y : List Char) : u ++ x < v ++ y := by
  rw [← List.lex_lt] at h ⊢
  induction h with
  | nil => cases hlength
  | cons _ ih => exact .cons (ih (Nat.succ.inj hlength))
  | rel hab => exact .rel hab

theorem append_singleton_le {u v : List Char} (h : u ≤ v) (hlength : u.length = v.length)
    (c : Char) : u ++ [c] ≤ v ++ [c] := by
  rcases h.lt_or_eq with h | rfl
  · exact (append_lt_append h hlength _ _).le
  · exact le_rfl

namespace Dfa

variable {d : Dfa} {q r : State} {u w : List Char} {c : Char} {k bound : Nat} {seen : StateSet}
  {level vs : List Visit} {v : Visit}

def Leads (d : Dfa) (w : List Char) (q : State) : Prop :=
  w ∈ d.alphabet.words ∧ d.run d.start w = some q

theorem leads_nil : d.Leads [] d.start := ⟨Alphabet.nil_mem_words, rfl⟩

theorem leads_concat_iff : d.Leads (w ++ [c]) r ↔
    ∃ q, d.Leads w q ∧ c ∈ d.alphabet ∧ d.next? q c = some r := by
  simp only [Leads, Alphabet.mem_words_concat, run_concat_eq_some]
  grind

theorem mem_language_iff_leads : w ∈ d.language ↔ ∃ q ∈ d.accept, d.Leads w q := by
  rw [mem_language]
  simp only [Leads]
  grind

/-! ### One level -/

/-- The word of a visit, as it is read. -/
def Visit.word (v : Visit) : List Char := v.2.reverse

/-- The visits after one more character, in the order of their words. -/
def candidates (d : Dfa) (level : List Visit) : List Visit :=
  level.flatMap fun v => d.alphabet.toList.filterMap fun c =>
    (d.next? v.1 c).map fun r => (r, c :: v.2)

/-- The visits to states that are new when their turn comes. -/
def newVisits (seen : StateSet) : List Visit → List Visit
  | [] => []
  | v :: vs => if v.1 ∈ seen then newVisits seen vs else v :: newVisits (seen.insert v.1) vs

theorem newVisits_sublist (seen : StateSet) (vs : List Visit) :
    (newVisits seen vs).Sublist vs := by
  induction vs generalizing seen with
  | nil => exact .slnil
  | cons v vs ih =>
    rw [newVisits]
    split
    · exact (ih seen).cons v
    · exact (ih _).cons_cons v

/-- A visit that is left out has its state in the set, or an earlier visit to it is kept. -/
theorem exists_newVisits {R : Visit → Visit → Prop} (hvs : vs.Pairwise R) (hv : v ∈ vs) :
    v.1 ∈ seen ∨ ∃ v' ∈ newVisits seen vs, v'.1 = v.1 ∧ (v' = v ∨ R v' v) := by
  induction vs generalizing seen with
  | nil => exact absurd hv List.not_mem_nil
  | cons x vs ih =>
    obtain ⟨hx, hvs⟩ := List.pairwise_cons.1 hvs
    rw [newVisits]
    rcases List.mem_cons.1 hv with rfl | hv
    · split
      · next hseen => exact .inl hseen
      · exact .inr ⟨v, List.mem_cons_self, rfl, .inl rfl⟩
    · split
      · exact ih hvs hv
      · rcases (ih hvs hv : v.1 ∈ seen.insert x.1 ∨ _) with hseen | ⟨v', hv', h⟩
        · rcases mem_insert_iff.1 hseen with heq | hseen
          · exact .inr ⟨x, List.mem_cons_self, heq.symm, .inr (hx v hv)⟩
          · exact .inl hseen
        · exact .inr ⟨v', List.mem_cons_of_mem x hv', h⟩

/-- The state of the visit becomes known, and the visit is kept if it was not. -/
def meet (s : StateSet × List Visit) (v : Visit) : StateSet × List Visit :=
  if v.1 ∈ s.1 then s else (s.1.insert v.1, v :: s.2)

theorem nextLevel_eq (d : Dfa) (seen : StateSet) (level : List Visit) :
    d.nextLevel seen level = (d.candidates level).foldl meet (seen, []) := by
  rw [nextLevel, candidates, List.foldl_flatMap]
  congr 1
  funext s v
  rw [List.foldl_filterMap]
  congr 1
  funext s c
  rw [visitNext]
  cases d.next? v.1 c <;> rfl

theorem snd_foldl_meet (seen : StateSet) (kept vs : List Visit) :
    (vs.foldl meet (seen, kept)).2 = (newVisits seen vs).reverse ++ kept := by
  induction vs generalizing seen kept with
  | nil => rfl
  | cons v vs ih =>
    rw [List.foldl_cons, meet, newVisits]
    split
    · exact ih seen kept
    · simp [ih]

theorem mem_foldl_meet (seen : StateSet) (kept vs : List Visit) :
    q ∈ (vs.foldl meet (seen, kept)).1 ↔ q ∈ seen ∨ ∃ v ∈ newVisits seen vs, v.1 = q := by
  induction vs generalizing seen kept with
  | nil => simp [newVisits]
  | cons v vs ih =>
    rw [List.foldl_cons, meet, newVisits]
    split
    · exact ih seen kept
    · simp only [ih, mem_insert_iff, List.mem_cons]
      grind

theorem size_foldl_meet (seen : StateSet) (kept vs : List Visit) :
    (vs.foldl meet (seen, kept)).1.size = seen.size + (newVisits seen vs).length := by
  induction vs generalizing seen kept with
  | nil => simp [newVisits]
  | cons v vs ih =>
    rw [List.foldl_cons, meet, newVisits]
    split
    · exact ih seen kept
    · next hnew =>
      rw [ih, size_insert_of_not_mem hnew, List.length_cons]
      show seen.size + 1 + (newVisits (seen.insert v.1) vs).length = _
      omega

theorem mem_candidates_iff : v ∈ d.candidates level ↔
    ∃ v₀ ∈ level, ∃ c ∈ d.alphabet, d.next? v₀.1 c = some v.1 ∧ v.2 = c :: v₀.2 := by
  simp only [candidates, List.mem_flatMap, List.mem_filterMap, Option.map_eq_some_iff,
    ExtTreeSet.mem_toList]
  constructor
  · rintro ⟨v₀, hv₀, c, hc, r, hnext, rfl⟩
    exact ⟨v₀, hv₀, c, hc, hnext, rfl⟩
  · rintro ⟨v₀, hv₀, c, hc, hnext, hword⟩
    exact ⟨v₀, hv₀, c, hc, v.1, hnext, by rw [← hword]⟩

theorem candidates_ascending (hlevel : level.Pairwise fun v v' => v.word < v'.word)
    (hlength : ∀ v ∈ level, v.word.length = k) :
    (d.candidates level).Pairwise fun v v' => v.word < v'.word := by
  refine List.pairwise_flatMap.2 ⟨fun v _ => ?_, ?_⟩
  · refine List.pairwise_filterMap.2 (ExtTreeSet.ordered_toList.imp ?_)
    intro c c' hcc x hx y hy
    obtain ⟨r, -, rfl⟩ := Option.map_eq_some_iff.1 hx
    obtain ⟨r', -, rfl⟩ := Option.map_eq_some_iff.1 hy
    simp only [Visit.word, List.reverse_cons]
    exact List.append_left_lt (.rel (compare_lt_iff_lt.1 hcc))
  · refine hlevel.imp_of_mem ?_
    intro v v' hv hv' hlt x hx y hy
    obtain ⟨c, -, hx⟩ := List.mem_filterMap.1 hx
    obtain ⟨r, -, rfl⟩ := Option.map_eq_some_iff.1 hx
    obtain ⟨c', -, hy⟩ := List.mem_filterMap.1 hy
    obtain ⟨r', -, rfl⟩ := Option.map_eq_some_iff.1 hy
    simp only [Visit.word, List.reverse_cons]
    exact append_lt_append hlt ((hlength v hv).trans (hlength v' hv').symm) _ _

/-! ### All levels -/

/-- The level of the words of length `k`. A state that a word of this length leads to is met with a
shorter word already, or with a word of the level that is not greater. -/
structure Level (d : Dfa) (k : Nat) (seen : StateSet) (level : List Visit) : Prop where
  leads : ∀ v ∈ level, d.Leads v.word v.1
  length_word : ∀ v ∈ level, v.word.length = k
  ascending : level.Pairwise fun v v' => v.word < v'.word
  mem_seen_iff : ∀ q, q ∈ seen ↔ ∃ w, w.length ≤ k ∧ d.Leads w q
  met : ∀ w q, w.length = k → d.Leads w q →
    (∃ u, u.length < k ∧ d.Leads u q) ∨ ∃ v ∈ level, v.1 = q ∧ v.word ≤ w
  le_length : ∀ w ∈ d.language, k ≤ w.length
  size_seen : k + level.length ≤ seen.size

namespace Level

theorem init (d : Dfa) : d.Level 0 {d.start} [(d.start, [])] where
  leads v hv := by
    obtain rfl := List.mem_singleton.1 hv
    exact leads_nil
  length_word v hv := by
    obtain rfl := List.mem_singleton.1 hv
    rfl
  ascending := List.pairwise_singleton _ _
  mem_seen_iff q := by
    rw [mem_singleton_iff]
    constructor
    · rintro rfl
      exact ⟨[], Nat.le_refl 0, leads_nil⟩
    · rintro ⟨w, hw, hq⟩
      obtain rfl := List.length_eq_zero_iff.1 (Nat.le_zero.1 hw)
      exact (Option.some.inj hq.2).symm
  met w q hw hq := by
    obtain rfl := List.length_eq_zero_iff.1 hw
    exact .inr ⟨_, List.mem_singleton_self _, Option.some.inj hq.2, le_rfl⟩
  le_length _ _ := Nat.zero_le _
  size_seen := by
    show 0 + 1 ≤ ((∅ : StateSet).insert d.start).size
    rw [size_insert_of_not_mem ExtTreeSet.not_mem_empty, ExtTreeSet.size_empty]

/-- One more character after a word of the level. -/
theorem exists_candidate (h : d.Level k seen level) (hw : w.length = k) (hq : d.Leads (w ++ [c]) r) :
    (∃ u, u.length ≤ k ∧ d.Leads u r) ∨
      ∃ v ∈ d.candidates level, v.1 = r ∧ v.word ≤ w ++ [c] := by
  obtain ⟨q, hq, hc, hnext⟩ := leads_concat_iff.1 hq
  rcases h.met w q hw hq with ⟨u, hu, huq⟩ | ⟨v, hv, rfl, hle⟩
  · exact .inl ⟨u ++ [c], by simp; omega, leads_concat_iff.2 ⟨q, huq, hc, hnext⟩⟩
  · refine .inr ⟨(r, c :: v.2), mem_candidates_iff.2 ⟨v, hv, c, hc, hnext, rfl⟩, rfl, ?_⟩
    rw [Visit.word, List.reverse_cons]
    exact append_singleton_le hle ((h.length_word v hv).trans hw.symm) c

theorem leads_candidate (h : d.Level k seen level) (hv : v ∈ d.candidates level) :
    d.Leads v.word v.1 ∧ v.word.length = k + 1 := by
  obtain ⟨v₀, hv₀, c, hc, hnext, hword⟩ := mem_candidates_iff.1 hv
  have hsplit : v.word = v₀.word ++ [c] := by
    rw [Visit.word, hword, List.reverse_cons]
    rfl
  rw [hsplit, leads_concat_iff, List.length_append, h.length_word v₀ hv₀]
  exact ⟨⟨v₀.1, h.leads v₀ hv₀, hc, hnext⟩, rfl⟩

/-- A candidate that is left out leads to a state that is met in another way. -/
theorem mem_or_exists_newVisit (h : d.Level k seen level) (hw : w.length = k + 1)
    (hq : d.Leads w q) :
    q ∈ seen ∨ ∃ v ∈ newVisits seen (d.candidates level), v.1 = q ∧ v.word ≤ w := by
  obtain ⟨w, c, rfl⟩ : ∃ u c, w = u ++ [c] := by
    rcases List.eq_nil_or_concat' w with rfl | hsplit
    · cases hw
    · exact hsplit
  rcases h.exists_candidate (by simpa using hw) hq with hshort | ⟨v, hv, rfl, hle⟩
  · exact .inl ((h.mem_seen_iff q).2 hshort)
  · have hascending := candidates_ascending (d := d) h.ascending h.length_word
    rcases exists_newVisits hascending hv with hseen | ⟨v', hv', heq, rfl | hlt⟩
    · exact .inl hseen
    · exact .inr ⟨v', hv', heq, hle⟩
    · exact .inr ⟨v', hv', heq, hlt.le.trans hle⟩

theorem lt_length (h : d.Level k seen level) (hreject : ∀ v ∈ level, v.1 ∉ d.accept)
    (hw : w ∈ d.language) : k < w.length := by
  obtain ⟨q, haccept, hq⟩ := mem_language_iff_leads.1 hw
  refine Nat.lt_of_le_of_ne (h.le_length w hw) fun heq => ?_
  rcases h.met w q heq.symm hq with ⟨u, hu, huq⟩ | ⟨v, hv, rfl, -⟩
  · have hle := h.le_length u (mem_language_iff_leads.2 ⟨q, haccept, huq⟩)
    omega
  · exact hreject v hv haccept

theorem next (h : d.Level k seen level) (hne : level ≠ [])
    (hreject : ∀ v ∈ level, v.1 ∉ d.accept) :
    d.Level (k + 1) (d.nextLevel seen level).1 (d.nextLevel seen level).2.reverse := by
  have hmem : ∀ q, q ∈ (d.nextLevel seen level).1 ↔
      q ∈ seen ∨ ∃ v ∈ newVisits seen (d.candidates level), v.1 = q := by
    intro q
    rw [nextLevel_eq, mem_foldl_meet]
  have hsublist := newVisits_sublist seen (d.candidates level)
  have hlevel : (d.nextLevel seen level).2.reverse = newVisits seen (d.candidates level) := by
    rw [nextLevel_eq, snd_foldl_meet, List.append_nil, List.reverse_reverse]
  rw [hlevel]
  constructor
  case leads => exact fun v hv => (h.leads_candidate (hsublist.subset hv)).1
  case length_word => exact fun v hv => (h.leads_candidate (hsublist.subset hv)).2
  case ascending => exact (candidates_ascending h.ascending h.length_word).sublist hsublist
  case mem_seen_iff =>
    intro q
    rw [hmem, h.mem_seen_iff]
    constructor
    · rintro (⟨w, hw, hq⟩ | ⟨v, hv, rfl⟩)
      · exact ⟨w, by omega, hq⟩
      · obtain ⟨hleads, hlength⟩ := h.leads_candidate (hsublist.subset hv)
        exact ⟨v.word, hlength.le, hleads⟩
    · rintro ⟨w, hw, hq⟩
      rcases Nat.le_succ_iff.1 hw with hw | hw
      · exact .inl ⟨w, hw, hq⟩
      · rw [← h.mem_seen_iff]
        refine (h.mem_or_exists_newVisit hw hq).imp_right ?_
        rintro ⟨v, hv, hvq, -⟩
        exact ⟨v, hv, hvq⟩
  case met =>
    intro w q hw hq
    refine (h.mem_or_exists_newVisit hw hq).imp_left fun hseen => ?_
    obtain ⟨u, hu, huq⟩ := (h.mem_seen_iff q).1 hseen
    exact ⟨u, by omega, huq⟩
  case le_length => exact fun w hw => h.lt_length hreject hw
  case size_seen =>
    have hpos := List.length_pos_iff.2 hne
    have hsize := h.size_seen
    rw [nextLevel_eq, size_foldl_meet]
    omega

/-- The first visit of a level to an accept state has the least accepted word. -/
theorem isLeast_of_find (h : d.Level k seen level)
    (hv : level.find? (·.1 ∈ d.accept) = some v) : IsLeast? d.language (some v.word) := by
  obtain ⟨haccept, before, after, rfl, hbefore⟩ := List.find?_eq_some_iff_append.1 hv
  have hmem : v ∈ before ++ v :: after := List.mem_append_right _ List.mem_cons_self
  have hlength := h.length_word v hmem
  refine .found (mem_language_iff_leads.2 ⟨v.1, by simpa using haccept, h.leads v hmem⟩) ?_
  intro w hw
  have hle := h.le_length w hw
  rcases Nat.lt_or_eq_of_le hle with hlt | heq
  · exact .inr (.of_length_lt (hlength ▸ hlt))
  · obtain ⟨q, hq, hleads⟩ := mem_language_iff_leads.1 hw
    have hshort : ¬ ∃ u, u.length < k ∧ d.Leads u q := by
      rintro ⟨u, hu, huq⟩
      exact Nat.not_lt_of_le (h.le_length u (mem_language_iff_leads.2 ⟨q, hq, huq⟩)) hu
    obtain ⟨v', hv', rfl, hv'w⟩ := (h.met w q heq.symm hleads).resolve_left hshort
    have hvv' : v.word ≤ v'.word := by
      rcases List.mem_append.1 hv' with hv' | hv'
      · exact absurd (hbefore v' hv') (by simpa using hq)
      · rcases List.mem_cons.1 hv' with rfl | hv'
        · exact le_rfl
        · exact ((List.pairwise_cons.1 (List.pairwise_append.1 h.ascending).2.1).1 v' hv').le
    rcases (hvv'.trans hv'w).lt_or_eq with hlt | heq'
    · exact .inr (.of_lex (hlength.trans heq) (List.lex_lt.2 hlt))
    · exact .inl heq'.symm

/-- If no state is first met with words of one length, none is first met with longer ones. -/
theorem exists_shorter_of_nil (h : d.Level k seen []) (hq : d.Leads w q) :
    ∃ u, u.length < k ∧ d.Leads u q := by
  have hmet : ∀ w q, w.length ≤ k → d.Leads w q → ∃ u, u.length < k ∧ d.Leads u q := by
    intro w q hw hq
    rcases Nat.lt_or_eq_of_le hw with hw | hw
    · exact ⟨w, hw, hq⟩
    · exact (h.met w q hw hq).resolve_right (by simp)
  induction w using List.reverseRecOn generalizing q with
  | nil => exact hmet [] q (Nat.zero_le k) hq
  | append_singleton w c ih =>
    obtain ⟨p, hp, hc, hnext⟩ := leads_concat_iff.1 hq
    obtain ⟨u, hu, hup⟩ := ih hp
    exact hmet (u ++ [c]) q (by simpa using Nat.succ_le_of_lt hu) (leads_concat_iff.2 ⟨p, hup, hc, hnext⟩)

theorem isLeast_of_nil (h : d.Level k seen []) : IsLeast? d.language none := by
  refine .missing fun w hw => ?_
  obtain ⟨q, haccept, hq⟩ := mem_language_iff_leads.1 hw
  obtain ⟨u, hu, huq⟩ := h.exists_shorter_of_nil hq
  have hle := h.le_length u (mem_language_iff_leads.2 ⟨q, haccept, huq⟩)
  omega

/-- All states but the start are met through moves. -/
theorem size_seen_le (h : d.Level k seen level) : seen.size ≤ d.moves.size + 1 := by
  have hlength : (d.start :: d.moves.toList.map (·.2)).length = d.moves.size + 1 := by
    simp
  rw [← hlength]
  refine size_le_length fun q hq => ?_
  obtain ⟨w, -, hleads⟩ := (h.mem_seen_iff q).1 hq
  rcases List.eq_nil_or_concat' w with rfl | ⟨u, c, rfl⟩
  · obtain rfl := Option.some.inj hleads.2
    exact List.mem_cons_self
  · obtain ⟨p, -, -, hnext⟩ := leads_concat_iff.1 hleads
    refine List.mem_cons_of_mem _ (List.mem_map.2 ⟨((p, c), q), ?_, rfl⟩)
    exact ExtTreeMap.mem_toList_iff_getElem?_eq_some.2 hnext

end Level

/-- The search goes from level to level until a level is empty or has an accept state. The bound is
never reached, since a level that is not empty has a state of its own. -/
theorem searchLevels_induction {P : StateSet → List Visit → Option (List Char) → Prop}
    (hnil : ∀ k seen, d.Level k seen [] → P seen [] none)
    (hfind : ∀ k seen level v, d.Level k seen level → level.find? (·.1 ∈ d.accept) = some v →
      P seen level (some v.word))
    (hnext : ∀ k seen level w?, d.Level k seen level → (∀ v ∈ level, v.1 ∉ d.accept) →
      P (d.nextLevel seen level).1 (d.nextLevel seen level).2.reverse w? → P seen level w?)
    (h : d.Level k seen level) (hbound : d.moves.size + 2 ≤ bound + k) :
    P seen level (d.searchLevels bound seen level) := by
  induction bound generalizing k seen level with
  | zero =>
    have hsize := h.size_seen
    have hle := h.size_seen_le
    omega
  | succ bound ih =>
    cases level with
    | nil => exact hnil k seen h
    | cons v level =>
      rw [searchLevels]
      · split
        · next v' hv' => exact hfind k seen _ v' h hv'
        · next hnone =>
          have hreject : ∀ v' ∈ v :: level, v'.1 ∉ d.accept := by
            intro v' hv' haccept
            simpa [haccept] using List.find?_eq_none.1 hnone v' hv'
          exact hnext k seen _ _ h hreject (ih (h.next (by simp) hreject) (by omega))
      · simp

/-- The search ends, and it finds the least accepted word if there is an accepted word. -/
theorem isLeast_shortest? (d : Dfa) : IsLeast? d.language d.shortest? := by
  apply searchLevels_induction (P := fun _ _ w? => IsLeast? d.language w?) _ _ _ (Level.init d)
    (Nat.le_refl _)
  · intro k seen h
    exact h.isLeast_of_nil
  · intro k seen level v h hv
    exact h.isLeast_of_find hv
  · intro k seen level w? _ _ hrest
    exact hrest

end Dfa

end FormalLanguages
