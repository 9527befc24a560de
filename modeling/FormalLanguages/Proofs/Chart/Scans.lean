import FormalLanguages.Proofs.Chart.Columns

/-!
# What can be read on from a column

The loop that makes a column notes an item that waits for a terminal when its turn comes. Each item
has its turn, and so in the end just those items are noted that are in the column, which is what is
found when the column is looked through once more.
-/

namespace FormalLanguages.Chart

open Std Search

variable {c : Chart} {columns : Array Column} {s : Column} {i j : Item} {t : String}
  {waiting : List Item} {found result : Found Item} {noted all : ExtTreeMap String Column}

/-- The item comes about when the terminal is read. -/
def IsOnward (c : Chart) (s : Column) (t : String) (j : Item) : Prop :=
  ∃ i ∈ s, c.next? i = some (.terminal t) ∧ i.advance = j

/-! ### After the column is made -/

theorem mem_onward : j ∈ c.onward s t ↔ c.IsOnward s t j := by
  rw [← getD_scans]
  exact mem_scans_getD

/-- No item is noted twice, since different items stay different when they are advanced. -/
theorem nodup_onward (c : Chart) (s : Column) (t : String) : (c.onward s t).Nodup := by
  have hinj : Function.Injective Item.advance := by
    rintro ⟨k, dot, origin⟩ ⟨k', dot', origin'⟩ h
    simpa [Item.advance] using h
  exact List.Nodup.map hinj ((nodup_toList s).filter _)

theorem eq_onward_of_scans {scanned : List Item} (h : (c.scans s)[t]? = some scanned) :
    scanned = c.onward s t := by
  rw [← getD_scans, ExtTreeMap.getD_eq_getD_getElem?, h, Option.getD_some]

theorem getElem?_scans_eq_none_iff : (c.scans s)[t]? = none ↔ ∀ j, ¬ c.IsOnward s t j := by
  rw [← Option.not_isSome_iff_eq_none, ← ExtTreeMap.mem_iff_isSome_getElem?, mem_scans]
  constructor
  · rintro h j ⟨i, hi, hnext, -⟩
    exact h ⟨i, hi, hnext⟩
  · rintro h ⟨i, hi, hnext⟩
    exact h i.advance ⟨i, hi, hnext, rfl⟩

/-! ### While the column is made -/

/-- An item that waits for a terminal is noted, advanced over it. -/
def note (c : Chart) (noted : ExtTreeMap String Column) (i : Item) : ExtTreeMap String Column :=
  match c.next? i with
  | some (.terminal t) => noted.insert t ((noted.getD t ∅).insert i.advance)
  | _ => noted

/-- The loop that makes a column, without a bound on its turns, and what it notes. -/
inductive Expands (c : Chart) (columns : Array Column) : List Item → Found Item →
    ExtTreeMap String Column → Found Item → ExtTreeMap String Column → Prop
  | done (found : Found Item) (noted : ExtTreeMap String Column) :
    Expands c columns [] found noted found noted
  | turn {i : Item} {waiting : List Item} {found result : Found Item}
    {noted all : ExtTreeMap String Column} :
    Expands c columns ((c.successors columns found.seen i).foldl (visit .queue) (waiting, found)).1
      ((c.successors columns found.seen i).foldl (visit .queue) (waiting, found)).2
      (c.note noted i) result all →
    Expands c columns (i :: waiting) found noted result all

theorem exists_expands (h : Explores .queue (c.successors columns) waiting found result)
    (noted : ExtTreeMap String Column) :
    ∃ all, c.Expands columns waiting found noted result all := by
  induction h generalizing noted with
  | done => exact ⟨noted, .done _ noted⟩
  | turn _ ih =>
    obtain ⟨all, h⟩ := ih (c.note noted _)
    exact ⟨all, .turn h⟩

theorem mem_note : j ∈ (c.note noted i).getD t ∅ ↔
    j ∈ noted.getD t ∅ ∨ c.next? i = some (.terminal t) ∧ i.advance = j := by
  unfold note
  split
  · next t' h =>
    rw [h, ExtTreeMap.getD_insert]
    by_cases ht : t' = t
    · simp only [ht, LawfulEqCmp.compare_eq_iff_eq, if_true, mem_insert_iff, true_and]
      rw [or_comm, @eq_comm _ j]
    · simp [ht]
  · next h => exact (or_iff_left fun hi => h t hi.1).symm

theorem mem_note_keys : t ∈ c.note noted i ↔ t ∈ noted ∨ c.next? i = some (.terminal t) := by
  unfold note
  split
  · next t' h => simp [h, or_comm]
  · next h => exact (or_iff_left (h t)).symm

/-- What holds between two turns: what is noted was found, and an item that was found waits for its
turn or is noted. -/
structure Notes (c : Chart) (waiting : List Item) (s : Column)
    (noted : ExtTreeMap String Column) : Prop where
  seen_of_waiting : ∀ i ∈ waiting, i ∈ s
  sound : ∀ t, ∀ j ∈ noted.getD t ∅, c.IsOnward s t j
  complete : ∀ i ∈ s, i ∈ waiting ∨
    ∀ t, c.next? i = some (.terminal t) → i.advance ∈ noted.getD t ∅
  mem_iff : ∀ t, t ∈ noted ↔ ∃ j, j ∈ noted.getD t ∅

theorem Notes.turn (h : c.Notes (i :: waiting) found.seen noted) (l : List Item) :
    c.Notes (l.foldl (visit .queue) (waiting, found)).1
      (l.foldl (visit .queue) (waiting, found)).2.seen (c.note noted i) where
  seen_of_waiting j hj := by
    rw [mem_seen_foldl_visit]
    rcases (mem_waiting_foldl_visit ..).1 hj with hj | ⟨hj, -⟩
    · exact .inr (h.seen_of_waiting j (List.mem_cons_of_mem i hj))
    · exact .inl hj
  sound t j hj := by
    have hlater : ∀ k ∈ found.seen, k ∈ (l.foldl (visit .queue) (waiting, found)).2.seen :=
      fun k hk => (mem_seen_foldl_visit ..).2 (.inr hk)
    rcases mem_note.1 hj with hj | hj
    · obtain ⟨k, hk, hnext⟩ := h.sound t j hj
      exact ⟨k, hlater k hk, hnext⟩
    · exact ⟨i, hlater i (h.seen_of_waiting i (List.mem_cons_self ..)), hj⟩
  complete j hj := by
    rw [mem_waiting_foldl_visit]
    by_cases hseen : j ∈ found.seen
    · rcases h.complete j hseen with hw | hnoted
      · rcases List.mem_cons.1 hw with rfl | hw
        · exact .inr fun t ht => mem_note.2 (.inr ⟨ht, rfl⟩)
        · exact .inl (.inl hw)
      · exact .inr fun t ht => mem_note.2 (.inl (hnoted t ht))
    · exact .inl (.inr ⟨((mem_seen_foldl_visit ..).1 hj).resolve_right hseen, hseen⟩)
  mem_iff t := by
    simp only [mem_note_keys, mem_note, exists_or, h.mem_iff]
    simp

theorem Expands.notes (h : c.Expands columns waiting found noted result all)
    (hn : c.Notes waiting found.seen noted) : c.Notes [] result.seen all := by
  induction h with
  | done => exact hn
  | turn _ ih => exact ih (hn.turn _)

theorem notes_starts (items : List Item) :
    c.Notes (items.foldl (visit .queue) ([], {})).1
      (items.foldl (visit .queue) ([], {})).2.seen ∅ where
  seen_of_waiting _ hi := mem_seen_starts.2 (mem_waiting_starts.1 hi)
  sound := by simp
  complete _ hi := .inl (mem_waiting_starts.2 (mem_seen_starts.1 hi))
  mem_iff := by simp

/-- When nothing waits any more, just the items of the column are noted that wait for a terminal. -/
theorem Notes.getElem?_eq (h : c.Notes [] s noted) (t : String) :
    (noted[t]? = none ↔ ∀ j, ¬ c.IsOnward s t j) ∧
      ∀ items, noted[t]? = some items → ∀ j, j ∈ items ↔ c.IsOnward s t j := by
  have hmem : ∀ j, j ∈ noted.getD t ∅ ↔ c.IsOnward s t j := by
    intro j
    refine ⟨h.sound t j, ?_⟩
    rintro ⟨i, hi, hnext, rfl⟩
    exact (h.complete i hi).resolve_left List.not_mem_nil t hnext
  constructor
  · rw [← Option.not_isSome_iff_eq_none, ← ExtTreeMap.mem_iff_isSome_getElem?, h.mem_iff]
    simp [hmem]
  · intro items hitems j
    rw [← hmem, ExtTreeMap.getD_eq_getD_getElem?, hitems, Option.getD_some]

/-- What the loop notes when it makes the column after some tokens. -/
theorem Indexed.exists_expands (hc : c.Indexed) (u : List String) : ∃ result all,
    c.Expands (c.earlier u) ((c.starts u).foldl (visit .queue) ([], {})).1
      ((c.starts u).foldl (visit .queue) ([], {})).2 ∅ result all ∧
    result.seen = c.column u ∧ c.Notes [] (c.column u) all := by
  obtain ⟨result, hspreads, hseen⟩ := hc.finishes u
  obtain ⟨all, hexpands⟩ := Chart.exists_expands hspreads ∅
  exact ⟨result, all, hexpands, hseen, hseen ▸ hexpands.notes (notes_starts _)⟩

end FormalLanguages.Chart
