import FormalLanguages.Proofs.Pushdown.Canonical

/-!
# Numbers for the canonical form

The canonical form draws a number for each move that is taken in two steps, and four more, all of
them after the states of the automaton. It fails only for want of numbers, and it is made if and
only if so many are left.
-/

namespace FormalLanguages.Pushdown

open Std Fresh

variable {p c : Pushdown} {s s' : Supply}

/-- How many moves are taken in two steps. -/
def splitCount (p : Pushdown) : Nat := p.moves.toList.countP (!·.isCanonical)

structure Room (p : Pushdown) (s : Supply) : Prop where
  next_le : s.next + p.splitCount + 4 ≤ State.last
  lt_last : ∀ q ∈ p.states, q + p.splitCount + 4 < State.last

theorem onlyRunsOut_canonical (p : Pushdown) : OnlyRunsOut p.canonical := by
  have hreserve : OnlyRunsOut p.reserve := by
    cases hlast : StateSet.greatest? p.states with
    | some last =>
      rw [reserve, hlast]
      exact onlyRunsOut_reservePast last
    | none =>
      rw [reserve, hlast]
      exact onlyRunsOut_pure ()
  have hsplit : ∀ m, OnlyRunsOut (splitMove m) := by
    intro m
    unfold splitMove
    split
    · exact onlyRunsOut_pure [m]
    · exact onlyRunsOut_fresh.bind fun q => onlyRunsOut_pure (m.halves q)
  exact hreserve.bind fun _ => onlyRunsOut_fresh.bind fun _ => (OnlyRunsOut.mapM hsplit _).bind
    fun _ => onlyRunsOut_fresh.bind fun _ => onlyRunsOut_fresh.bind fun _ =>
      onlyRunsOut_fresh.bind fun _ => onlyRunsOut_pure _

theorem draws_splitMoves (ms : List Move) :
    Draws (ms.countP (!·.isCanonical)) (ms.mapM splitMove) := by
  induction ms with
  | nil => exact draws_pure []
  | cons m ms ih =>
    rw [List.mapM_cons]
    cases hm : m.isCanonical with
    | true =>
      have hsplit : splitMove m = pure [m] := if_pos hm
      rw [hsplit, List.countP_cons_of_neg (by simp [hm])]
      exact ((draws_pure [m]).bind fun b => ih.bind fun bs => draws_pure (b :: bs)).mono (by omega)
    | false =>
      have hsplit : splitMove m = fresh >>= fun q => pure (m.halves q) :=
        if_neg (by simp [hm])
      rw [hsplit, List.countP_cons_of_pos (by simp [hm])]
      exact ((draws_fresh.bind fun q => draws_pure (m.halves q)).bind fun b =>
        ih.bind fun bs => draws_pure (b :: bs)).mono (by omega)

theorem next_of_splitMoves {ms : List Move} {mss : List (List Move)}
    (h : ms.mapM splitMove s = .ok (mss, s')) :
    s'.next = s.next + ms.countP (!·.isCanonical) := by
  induction ms generalizing mss s with
  | nil => exact (congrArg Supply.next (pure_eq_ok_iff.1 h).2).symm
  | cons m ms ih =>
    rw [List.mapM_cons] at h
    obtain ⟨b, s₁, hsplit, h⟩ := bind_eq_ok_iff.1 h
    obtain ⟨bs, s₂, hrest, h⟩ := bind_eq_ok_iff.1 h
    obtain ⟨-, rfl⟩ := pure_eq_ok_iff.1 h
    have hnext := ih hrest
    rcases splitMove_eq_ok hsplit with ⟨hm, -, hfirst⟩ | ⟨hm, -, hfirst⟩
    · rw [List.countP_cons_of_neg (by simp [hm])]
      lia
    · rw [List.countP_cons_of_pos (by simp [hm])]
      lia

theorem exists_reserve (hp : p.WellFormed) (h : ∀ q ∈ p.states, q < State.last) (s : Supply) :
    ∃ s', p.reserve s = .ok ((), s') ∧ (s'.next = s.next ∨ ∃ q ∈ p.states, s'.next = q + 1) := by
  cases hlast : StateSet.greatest? p.states with
  | some last =>
    have hmem := ExtTreeSet.mem_toList.1 (List.mem_of_getLast? hlast)
    rw [reserve, hlast]
    refine ⟨⟨max s.next (last + 1)⟩, reservePast_eq_ok_iff.2 ⟨h last hmem, rfl⟩, ?_⟩
    exact (Nat.le_total (last + 1) s.next).imp Nat.max_eq_left
      fun hle => ⟨last, hmem, Nat.max_eq_right hle⟩
  | none =>
    rw [StateSet.greatest?, List.getLast?_eq_none_iff] at hlast
    have hmem := ExtTreeSet.mem_toList.2 hp.start_mem
    rw [hlast] at hmem
    cases hmem

/-- The canonical form is made if and only if there is room for it. -/
theorem exists_canonical_iff_room (hp : p.WellFormed) (s : Supply) :
    (∃ c s', p.canonical s = .ok (c, s')) ↔ p.Room s := by
  constructor
  · intro h
    obtain ⟨c, s', h⟩ := h
    obtain ⟨s₀, s₁, mss, s₂, hreserve, hstart, hsplit, hlast, -⟩ := canonical_eq_ok h
    have hcount : s₂.next = s₁.next + p.splitCount := next_of_splitMoves hsplit
    have hnext := next_le_of_reserve hreserve
    constructor
    · lia
    · intro q hq
      have hlt := lt_of_reserve hreserve q hq
      lia
  · intro h
    have hlast : ∀ q ∈ p.states, q < State.last := by
      intro q hq
      have hlt := h.lt_last q hq
      lia
    obtain ⟨s₀, hreserve, hs₀⟩ := exists_reserve hp hlast s
    have hroom : s₀.next + (1 + (p.splitCount + (1 + (1 + (1 + 0))))) ≤ State.last := by
      rcases hs₀ with hs₀ | ⟨q, hq, hs₀⟩
      · have hle := h.next_le
        lia
      · have hlt := h.lt_last q hq
        lia
    have hrest := draws_fresh.bind fun start => (draws_splitMoves p.moves.toList).bind
      fun mss => draws_fresh.bind fun drain => draws_fresh.bind fun enter => draws_fresh.bind
        fun accept => draws_pure (p.framed start drain enter accept mss.flatten)
    obtain ⟨c, s', hc, -⟩ := hrest s₀ hroom
    exact ⟨c, s', bind_eq_ok_iff.2 ⟨(), s₀, hreserve, hc⟩⟩

/-- Small numbers of states leave room for the canonical form. -/
theorem canonical_ne_outOfStates (hp : p.WellFormed)
    (h : ∀ q ∈ p.states, q + p.moves.size + 4 < State.last) :
    Supply.run {} p.canonical ≠ .error .outOfStates := by
  have hcount : p.splitCount ≤ p.moves.size := by
    rw [← ExtTreeSet.length_toList]
    exact List.countP_le_length
  have hroom : p.Room {} := by
    constructor
    · have hlt := h _ hp.start_mem
      simp only
      lia
    · intro q hq
      have hlt := h q hq
      lia
  obtain ⟨c, s', hc⟩ := (exists_canonical_iff_room hp {}).2 hroom
  rw [Supply.run_eq_ok_iff.2 ⟨s', hc⟩]
  intro h
  cases h

end FormalLanguages.Pushdown
