import FormalLanguages.Proofs.Grammar.Inline
import FormalLanguages.Proofs.Grammar.Rename
import FormalLanguages.Proofs.Pushdown.CanonicalForm
import FormalLanguages.Proofs.Pushdown.Triples

/-!
# The grammar of a pushdown automaton

The canonical form keeps the language, the ways from its start to its accept state derive it, and
the passes that make the grammar small keep it again.
-/

namespace FormalLanguages.Pushdown

open Std

variable {p c : Pushdown} {l : Layout}

theorem Form.suited (hf : Form p c l)
    (hinput : ∀ t, t ∈ p.input ↔ ∃ m ∈ p.moves, m.read = some t)
    (hε : ∀ m ∈ p.moves, m.read ≠ some epsilonSymbol)
    (hway : ∀ q ∈ c.states, ∀ r ∈ c.states, wayVariable q r ∉ p.input) : c.Suited where
  isCanonical _ hm := hf.isCanonical hm
  source_mem := hf.source_mem
  target_mem := hf.target_mem
  read_mem m hm t ht := by
    rw [hf.input_eq, hinput]
    rcases (hf.mem_moves_iff m).1 hm with rfl | ⟨m', hm', hstep⟩ | hdrain
    · cases ht
    · exact ⟨m', hm', Move.read_of_steps hstep ht⟩
    · rw [read_of_drainMoves hdrain] at ht
      cases ht
  epsilon_not_mem h := by
    rw [hf.input_eq, hinput] at h
    obtain ⟨m, hm, hread⟩ := h
    exact hε m hm hread
  way_not_mem q hq r hr h := hway q hq r hr (hf.input_eq ▸ h)

/-- In the end the grammar is trimmed and renamed; before that it derives already what the canonical
form reads on its way to the accept state. -/
theorem Form.exists_toGrammar (hf : Form p c l) (hcanonical : Supply.run {} p.canonical = .ok c)
    (hc : c.Suited) : ∃ g : Grammar, p.toGrammar = .ok g.trim.rename ∧ g.WellFormed ∧
      g.terminals = p.input ∧ ∀ w, g.Derives w ↔ c.Run l.start [] w l.accept [] := by
  have hstart : c.start ∈ c.states := hf.start_eq ▸ hf.start_mem
  have hsimplify := (hc.wellFormed_ways hstart hf.accept_mem).equivalent_simplify
  have hcollapse := hsimplify.wellFormed.equivalent_collapseTrivialStar
  have hinline := hcollapse.wellFormed.equivalent_eliminateNonSelfRecursive
  have heq := (hsimplify.trans hcollapse).trans hinline
  refine ⟨_, ?_, heq.wellFormed, ?_, fun w => ?_⟩
  · rw [toGrammar, hcanonical]
    show (c.wayGrammar >>= _) = _
    rw [wayGrammar_eq hf.accept_eq hc.isCanonical]
    rfl
  · rw [heq.terminals, terminals_ways, hf.input_eq]
  · rw [heq.derives, hc.derives_ways_iff hstart hf.accept_mem, hf.start_eq]

theorem exists_toGrammar (hp : p.WellFormed) (hnamed : p.Named)
    (hε : ∀ m ∈ p.moves, m.read ≠ some epsilonSymbol)
    (hroom : Supply.run {} p.canonical ≠ .error .outOfStates)
    (hway : ∀ c, Supply.run {} p.canonical = .ok c →
      ∀ q ∈ c.states, ∀ r ∈ c.states, wayVariable q r ∉ p.input) :
    ∃ g : Grammar, p.toGrammar = .ok g.trim.rename ∧ g.WellFormed ∧ g.terminals = p.input ∧
      ∀ w, g.Derives w ↔ p.Accepts w := by
  cases hcanonical : Supply.run {} p.canonical with
  | error e =>
    rw [hcanonical] at hroom
    rw [Supply.run_eq_error_iff] at hcanonical
    exact absurd (onlyRunsOut_canonical p _ _ hcanonical ▸ rfl) hroom
  | ok c =>
    obtain ⟨l, hf⟩ := exists_form hp hcanonical
    have hc := hf.suited hp.mem_input_iff hε (hway c hcanonical)
    obtain ⟨g, hg, hwf, hterm, hderives⟩ := hf.exists_toGrammar hcanonical hc
    exact ⟨g, hg, hwf, hterm, fun w => (hderives w).trans (hf.run_iff_accepts hp hnamed)⟩

/-- An automaton whose start and accept states are among its states, whose stack symbols have names,
whose tokens are neither the empty word nor names of ways, and whose state numbers leave room for
the canonical form, has a grammar. It has the tokens of the automaton as terminals, and it derives
the words that the automaton accepts. -/
theorem toGrammar_derives_iff_accepts (hp : p.WellFormed) (hnamed : p.Named)
    (hε : ∀ m ∈ p.moves, m.read ≠ some epsilonSymbol)
    (hway : ∀ m ∈ p.moves, ∀ q r, m.read ≠ some (wayVariable q r))
    (hroom : Supply.run {} p.canonical ≠ .error .outOfStates) :
    ∃ g, p.toGrammar = .ok g ∧ g.WellFormed ∧ g.terminals = p.input ∧
      ∀ w, g.Derives w ↔ p.Accepts w := by
  have hinput : ∀ q r, wayVariable q r ∉ p.input := by
    intro q r h
    obtain ⟨m, hm, hread⟩ := (hp.mem_input_iff _).1 h
    exact hway m hm q r hread
  obtain ⟨g, hg, hwf, hterm, hderives⟩ :=
    exists_toGrammar hp hnamed hε hroom fun _ _ q _ r _ => hinput q r
  have heq := hwf.equivalent_trim_rename
  exact ⟨_, hg, heq.wellFormed, heq.terminals.trans hterm,
    fun w => (heq.derives w).trans (hderives w)⟩

/-- Each `a` is put on the stack and each `b` takes one away, in the one state there is. -/
def ballot : Pushdown :=
  (((ofStart 0).addMove ⟨0, some "a", none, 0, some (.named "x")⟩).addMove
    ⟨0, some "b", some (.named "x"), 0, none⟩).addAccept 0

theorem ballot_wellFormed : ballot.WellFormed :=
  (((wellFormed_ofStart 0).addMove _).addMove _).addAccept 0

theorem mem_moves_ballot {m : Move} : m ∈ ballot.moves ↔
    m = ⟨0, some "b", some (.named "x"), 0, none⟩ ∨
      m = ⟨0, some "a", none, 0, some (.named "x")⟩ := by
  rw [ballot, moves_addAccept, mem_moves_addMove, mem_moves_addMove]
  exact or_congr_right (or_iff_left ExtTreeSet.not_mem_empty)

/-- What is left on the stack is accepted. -/
theorem ballot_accepts : ballot.Accepts ["a", "a", "b"] := by
  refine ⟨0, ExtTreeSet.mem_insert.2 (.inl (by decide)), [.named "x"], ?_⟩
  have hpush := fun s => Run.single (mem_moves_ballot.2 (.inr rfl)) s
  have hpop := fun s => Run.single (mem_moves_ballot.2 (.inl rfl)) s
  exact (hpush []).trans ((hpush [.named "x"]).trans (hpop [.named "x"]))

theorem ballot_room : Supply.run {} ballot.canonical ≠ .error .outOfStates := by
  have hsize : ballot.moves.size ≤ 2 := by
    apply size_le_length (l := [_, _])
    intro m hm
    simpa using mem_moves_ballot.1 hm
  apply canonical_ne_outOfStates ballot_wellFormed
  intro q hq
  have hq : 0 = q ∨ q = 0 ∨ 0 = q := by simpa [ballot, addAccept, ofStart] using hq
  rw [State.last]
  lia

theorem toGrammar_ballot : ballot.WellFormed ∧
    ∃ g, ballot.toGrammar = .ok g ∧ g.Derives ["a", "a", "b"] := by
  obtain ⟨g, hg, -, -, hderives⟩ := toGrammar_derives_iff_accepts ballot_wellFormed
    (by
      intro m hm x hx
      rcases mem_moves_ballot.1 hm with rfl | rfl <;> exact ⟨"x", by simpa [eq_comm] using hx⟩)
    (by
      intro m hm
      rcases mem_moves_ballot.1 hm with rfl | rfl <;> decide)
    (by
      intro m hm q r hread
      have hlist := congrArg (Option.map String.toList) hread
      rw [Option.map_some, toList_wayVariable] at hlist
      rcases mem_moves_ballot.1 hm with rfl | rfl <;> simp at hlist)
    ballot_room
  exact ⟨ballot_wellFormed, g, hg, (hderives _).2 ballot_accepts⟩

/-! ### A start or an accept state that is not among the states -/

section Stray

variable {m : Move} {q r : State} {w : List String}

theorem stray_read_ne_epsilon (hm : m ∈ (stray q r).moves) : m.read ≠ some epsilonSymbol := by
  rcases mem_moves_stray.1 hm with rfl | rfl <;> decide

theorem stray_read_ne_way (hm : m ∈ (stray q r).moves) (q' r' : State) :
    m.read ≠ some (wayVariable q' r') := by
  rcases mem_moves_stray.1 hm with rfl | rfl <;>
    exact fun hread => wayVariable_ne (by decide) (Option.some.inj hread).symm

theorem stray_room (q r : State) : Supply.run {} (stray q r).canonical ≠ .error .outOfStates := by
  obtain ⟨c, supply, hcanonical, -⟩ := exists_form_stray q r
  rw [Supply.run_eq_ok_iff.2 ⟨supply, hcanonical⟩]
  intro h
  cases h

/-- What the canonical form reads on its way to the accept state is derived. -/
theorem toGrammar_stray_derives {supply : Supply}
    (hcanonical : (stray q r).canonical {} = .ok (c, supply)) (hf : Form (stray q r) c l)
    (hrun : c.Run l.start [] w l.accept []) :
    ∃ g, (stray q r).toGrammar = .ok g ∧ g.Derives w := by
  have hinput : ∀ t, t ∈ (stray q r).input ↔ ∃ m ∈ (stray q r).moves, m.read = some t :=
    fun _ => mem_input_stray
  have hc := hf.suited hinput (fun _ => stray_read_ne_epsilon) fun q' _ r' _ hmem => by
    obtain ⟨m, hm, hread⟩ := (hinput _).1 hmem
    exact stray_read_ne_way hm q' r' hread
  obtain ⟨g, hg, hwf, -, hderives⟩ :=
    hf.exists_toGrammar (Supply.run_eq_ok_iff.2 ⟨supply, hcanonical⟩) hc
  exact ⟨_, hg, (hwf.equivalent_trim_rename.derives w).2 ((hderives w).2 hrun)⟩

end Stray

/-- The number of an accept state, or of the start, may be drawn for the canonical form if it is not
among the states of the automaton. Then the grammar derives what the automaton does not accept. -/
theorem toGrammar_stray :
    (∀ q r, (stray q r).Named ∧ (∀ m ∈ (stray q r).moves, m.read ≠ some epsilonSymbol) ∧
      (∀ m ∈ (stray q r).moves, ∀ q' r', m.read ≠ some (wayVariable q' r')) ∧
      Supply.run {} (stray q r).canonical ≠ .error .outOfStates) ∧
    (¬ (stray 0 2).Accepts ["a", "b"] ∧
      ∃ g, (stray 0 2).toGrammar = .ok g ∧ g.Derives ["a", "b"]) ∧
    ¬ (stray 2 0).Accepts [] ∧ ∃ g, (stray 2 0).toGrammar = .ok g ∧ g.Derives [] := by
  refine ⟨fun q r => ⟨stray_named, fun _ => stray_read_ne_epsilon, fun _ => stray_read_ne_way,
    stray_room q r⟩, ?_, ?_⟩
  · obtain ⟨c, supply, hcanonical, l, hf, hbetween⟩ := exists_form_stray 0 2
    exact ⟨stray_not_accepts (by decide),
      toGrammar_stray_derives hcanonical hf (run_stray_accept hf hbetween)⟩
  · obtain ⟨c, supply, hcanonical, l, hf, hbetween⟩ := exists_form_stray 2 0
    exact ⟨stray_not_accepts (by decide),
      toGrammar_stray_derives hcanonical hf (run_stray_start hf hbetween)⟩

end FormalLanguages.Pushdown
