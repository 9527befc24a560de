import FormalLanguages.Proofs.Automaton.Shortest

/-!
# The search with a queue

A breadth-first search takes the states one by one from a queue and puts the new states at its end.
When it comes to the end of a level, the next level stands in the queue, so that the search by
levels finds the same word. Nothing bounds the number of turns of the queue.
-/

namespace FormalLanguages

open Std

/-- The least word in terms of lengths and of the order of words of one length. -/
theorem IsLeast?.eq_some_iff {L : Language Char} {w? : Option (List Char)} {w : List Char}
    (h : IsLeast? L w?) : w? = some w ↔
      w ∈ L ∧ (∀ v ∈ L, w.length ≤ v.length) ∧ ∀ v ∈ L, v.length = w.length → w ≤ v := by
  cases h with
  | missing hempty => exact iff_of_false (by simp) fun hw => hempty w hw.1
  | @found u hmem hleast =>
    have hlength : ∀ v ∈ L, u.length ≤ v.length := by
      intro v hv
      rcases hleast v hv with rfl | hlt
      · exact le_rfl
      · exact (List.shortlex_def.1 hlt).elim Nat.le_of_lt fun hlex => hlex.1.le
    have hle : ∀ v ∈ L, v.length = u.length → u ≤ v := by
      intro v hv heq
      rcases hleast v hv with rfl | hlt
      · exact le_rfl
      · rcases List.shortlex_def.1 hlt with hshorter | hlex
        · omega
        · exact (List.lex_lt.1 hlex.2).le
    constructor
    · intro heq
      rw [← Option.some.inj heq]
      exact ⟨hmem, hlength, hle⟩
    · intro hw
      have heq : u.length = w.length := Nat.le_antisymm (hlength w hw.1) (hw.2.1 u hmem)
      have hword : u = w := (hle w hw.1 heq.symm).antisymm (hw.2.2 u hmem heq)
      rw [hword]

namespace Dfa

variable {d : Dfa} {seen : StateSet} {level above queue : List Visit} {v : Visit}
  {w? w?' : Option (List Char)}

/-- The search ends with this result when these visits wait in the queue. -/
inductive Finds (d : Dfa) : StateSet → List Visit → Option (List Char) → Prop
  | nothing {seen : StateSet} : Finds d seen [] none
  | found {seen : StateSet} {v : Visit} {queue : List Visit} (accept : v.1 ∈ d.accept) :
    Finds d seen (v :: queue) (some v.word)
  | turn {seen : StateSet} {v : Visit} {queue : List Visit} {w? : Option (List Char)}
    (reject : v.1 ∉ d.accept)
    (rest : Finds d (d.nextLevel seen [v]).1 (queue ++ (d.nextLevel seen [v]).2.reverse) w?) :
    Finds d seen (v :: queue) w?

theorem Finds.unique (h : d.Finds seen queue w?) (h' : d.Finds seen queue w?') : w? = w?' := by
  induction h with
  | nothing =>
    cases h' with
    | nothing => rfl
  | found haccept =>
    cases h' with
    | found _ => rfl
    | turn hreject _ => exact absurd haccept hreject
  | turn hreject _ ih =>
    cases h' with
    | found haccept => exact absurd haccept hreject
    | turn _ hrest => exact ih hrest

/-! ### The queue through one level -/

/-- The visits that are kept already play no part in what is met later. -/
theorem foldl_meet_kept (seen : StateSet) (kept vs : List Visit) :
    vs.foldl meet (seen, kept) =
      ((vs.foldl meet (seen, [])).1, (vs.foldl meet (seen, [])).2 ++ kept) := by
  have hseen : (vs.foldl meet (seen, kept)).1 = (vs.foldl meet (seen, [])).1 := by
    apply ExtTreeSet.ext_mem
    intro q
    rw [mem_foldl_meet, mem_foldl_meet]
  have hkept : (vs.foldl meet (seen, kept)).2 = (vs.foldl meet (seen, [])).2 ++ kept := by
    rw [snd_foldl_meet, snd_foldl_meet, List.append_nil]
  exact Prod.ext hseen hkept

/-- A level may be gone through visit by visit. -/
theorem nextLevel_cons (d : Dfa) (seen : StateSet) (v : Visit) (level : List Visit) :
    d.nextLevel seen (v :: level) =
      ((d.nextLevel (d.nextLevel seen [v]).1 level).1,
        (d.nextLevel (d.nextLevel seen [v]).1 level).2 ++ (d.nextLevel seen [v]).2) := by
  have hcandidates : d.candidates (v :: level) = d.candidates [v] ++ d.candidates level :=
    @List.flatMap_append _ _ [v] level _
  rw [nextLevel_eq, hcandidates, List.foldl_append, ← nextLevel_eq, nextLevel_eq d _ level]
  exact foldl_meet_kept _ _ _

/-- The states of a level are taken from the queue while those of the next level are put into it. -/
theorem finds_of_level (hreject : ∀ v ∈ level, v.1 ∉ d.accept)
    (h : d.Finds (d.nextLevel seen level).1 (above ++ (d.nextLevel seen level).2.reverse) w?) :
    d.Finds seen (level ++ above) w? := by
  induction level generalizing seen above with
  | nil => simpa [nextLevel] using h
  | cons v level ih =>
    obtain ⟨hv, hlevel⟩ := List.forall_mem_cons.1 hreject
    rw [nextLevel_cons, List.reverse_append, ← List.append_assoc] at h
    have hrest := ih hlevel h
    rw [← List.append_assoc] at hrest
    exact .turn hv hrest

theorem finds_of_find (hv : level.find? (·.1 ∈ d.accept) = some v) :
    d.Finds seen level (some v.word) := by
  obtain ⟨haccept, before, after, rfl, hbefore⟩ := List.find?_eq_some_iff_append.1 hv
  apply finds_of_level
  · intro v' hv'
    simpa using hbefore v' hv'
  · exact .found (by simpa using haccept)

/-! ### The queue through the whole search -/

theorem finds_shortest? (d : Dfa) : d.Finds {d.start} [(d.start, [])] d.shortest? := by
  apply searchLevels_induction (P := d.Finds) _ _ _ (Level.init d) (Nat.le_refl _)
  · intro k seen _
    exact .nothing
  · intro k seen level v _ hv
    exact finds_of_find hv
  · intro k seen level w? _ hreject hrest
    rw [← List.append_nil level]
    apply finds_of_level hreject
    rwa [List.nil_append]

theorem finds_iff_eq_shortest? :
    d.Finds {d.start} [(d.start, [])] w? ↔ w? = d.shortest? := by
  constructor
  · intro h
    exact h.unique (finds_shortest? d)
  · intro h
    rw [h]
    exact finds_shortest? d

/-- The search with the queue ends, without a word just when there is no accepted word, and else
with the accepted word that is least among the shortest. -/
theorem finds_least (d : Dfa) :
    (∀ w?, d.Finds {d.start} [(d.start, [])] w? ↔ w? = d.shortest?) ∧
      (d.shortest? = none ↔ ∀ w, d.accepts w = false) ∧
      ∀ w, d.shortest? = some w ↔ d.accepts w = true ∧
        (∀ v, d.accepts v = true → w.length ≤ v.length) ∧
        ∀ v, d.accepts v = true → v.length = w.length → w ≤ v := by
  have hleast := isLeast_shortest? d
  constructor
  · intro w?
    exact finds_iff_eq_shortest?
  constructor
  · rw [hleast.eq_none_iff]
    apply forall_congr'
    intro w
    exact iff_of_eq (Bool.not_eq_true (d.accepts w))
  · intro w
    rw [hleast.eq_some_iff]
    rfl

end Dfa

end FormalLanguages
