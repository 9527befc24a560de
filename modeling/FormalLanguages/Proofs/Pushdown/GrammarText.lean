import FormalLanguages.Proofs.Grammar.RenamedText
import FormalLanguages.Proofs.Pushdown.Grammar
import FormalLanguages.Proofs.Pushdown.Reading
import FormalLanguages.Requests

/-!
# The text of the grammar of a pushdown automaton

A token may have blanks or bars in it, but not where it stands in the text of a grammar. The text
that is given for an automaton can be used if and only if no word that is accepted has such a token.
-/

namespace FormalLanguages.Requests

open Std
open LineFormat (readPushdown)
open Pushdown (wayVariable)

variable {start accept moves : List Char} {p : Pushdown}

/-- The answer is the text of a trimmed grammar with short names. -/
theorem exists_pushdownToGrammar_eq (hread : readPushdown start accept moves = .ok p)
    (hroom : Supply.run {} p.canonical ≠ .error .outOfStates)
    (hapart : ∀ c, Supply.run {} p.canonical = .ok c →
      ∀ q ∈ c.states, ∀ r ∈ c.states, wayVariable q r ∉ p.input) :
    ∃ g : Grammar, pushdownToGrammar start accept moves = .ok g.trim.rename.print ∧
      g.WellFormed ∧ g.terminals = p.input ∧ ∀ w, g.Derives w ↔ p.Accepts w := by
  have hp := Pushdown.wellFormed_of_readPushdown hread
  have hnamed := Pushdown.named_of_readPushdown hread
  have hε : ∀ m ∈ p.moves, m.read ≠ some epsilonSymbol := by
    intro m hm heq
    have hinput := (hp.mem_input_iff epsilonSymbol).2 ⟨m, hm, heq⟩
    exact (Pushdown.isToken_of_readPushdown hread hinput).not_epsilon rfl
  obtain ⟨g, hg, h⟩ := Pushdown.exists_toGrammar hp hnamed hε hroom hapart
  refine ⟨g, ?_, h⟩
  rw [pushdownToGrammar, hread]
  show (p.toGrammar >>= _) = _
  rw [hg]
  rfl

/-- When state numbers do not run out and no token is the name of a way, there is an answer. It is
read, over the tokens of the automaton, as a grammar of the words that the automaton accepts if and
only if no token of such a word has a bar or a blank in it. -/
theorem pushdownToGrammar_read_back_iff (hread : readPushdown start accept moves = .ok p)
    (hroom : Supply.run {} p.canonical ≠ .error .outOfStates)
    (hapart : ∀ c, Supply.run {} p.canonical = .ok c →
      ∀ q ∈ c.states, ∀ r ∈ c.states, wayVariable q r ∉ p.input) :
    ∃ out, pushdownToGrammar start accept moves = .ok out ∧
      ((∃ h, Grammar.parse p.input out = .ok h ∧ ∀ w, h.Derives w ↔ p.Accepts w) ↔
        ∀ w, p.Accepts w → ∀ t ∈ w, '|' ∉ t.toList ∧ ∀ c ∈ t.toList, ¬ Text.isBlank c) := by
  obtain ⟨g, hout, hg, hterm, hderives⟩ := exists_pushdownToGrammar_eq hread hroom hapart
  refine ⟨_, hout, ?_⟩
  have htoken : ∀ w, g.Derives w → ∀ t ∈ w, LineFormat.IsToken t := fun w hw t ht =>
    Pushdown.isToken_of_readPushdown hread (hterm ▸ hw.mem_terminals t ht)
  have hback := hg.read_back_iff
  rw [hterm] at hback
  simp only [← hderives]
  rw [hback]
  exact forall₂_congr fun w hw => forall₂_congr fun t ht => (htoken w hw t ht).isWord_iff

/-! ### Two automata -/

def parts (p : Pushdown) : List State × List String × State × List Pushdown.Move × List State :=
  (p.states.toList, p.input.toList, p.start, p.moves.toList, p.accept.toList)

theorem room_of_readPushdown (hread : readPushdown start accept moves = .ok p)
    (h : ∀ q ∈ p.states.toList, q + p.moves.toList.length + 4 < State.last) :
    Supply.run {} p.canonical ≠ .error .outOfStates := by
  apply Pushdown.canonical_ne_outOfStates (Pushdown.wellFormed_of_readPushdown hread)
  intro q hq
  rw [← ExtTreeSet.length_toList]
  exact h q (ExtTreeSet.mem_toList.2 hq)

theorem way_not_mem_input (h : ∀ t ∈ p.input.toList, t.toList.head? ≠ some 'A') (q r : State) :
    wayVariable q r ∉ p.input :=
  fun hmem => Pushdown.wayVariable_ne (h _ (ExtTreeSet.mem_toList.2 hmem)) rfl

/-- Each `a` is put on the stack and each `b` takes one away, in the one state there is. -/
theorem pushdownToGrammar_ballot : ∃ p out h,
    readPushdown "q".toList "q".toList "q q a,~ -> x\nq q b,x -> ~".toList = .ok p ∧
    pushdownToGrammar "q".toList "q".toList "q q a,~ -> x\nq q b,x -> ~".toList = .ok out ∧
    Grammar.parse p.input out = .ok h ∧ ∀ w, h.Derives w ↔ p.Accepts w := by
  have hparts : (readPushdown "q".toList "q".toList "q q a,~ -> x\nq q b,x -> ~".toList).map parts =
      .ok ([0], ["a", "b"], 0, [⟨0, some "a", none, 0, some (.named "x")⟩,
        ⟨0, some "b", some (.named "x"), 0, none⟩], [0]) := by decide +kernel
  obtain ⟨p, hread, hparts⟩ := exists_of_map_eq_ok hparts
  simp only [parts, Prod.mk.injEq] at hparts
  obtain ⟨hstates, hinput, -, hmoves, -⟩ := hparts
  obtain ⟨out, hout, hback⟩ := pushdownToGrammar_read_back_iff hread
    (room_of_readPushdown hread (by rw [hstates, hmoves]; decide))
    (fun _ _ q _ r _ => way_not_mem_input (by rw [hinput]; decide) q r)
  have hclean : ∀ t ∈ p.input, '|' ∉ t.toList ∧ ∀ c ∈ t.toList, ¬ Text.isBlank c := by
    intro t ht
    have hcases : t = "a" ∨ t = "b" := by
      simpa only [← ExtTreeSet.mem_toList, hinput, List.mem_cons, List.not_mem_nil, or_false]
        using ht
    rcases hcases with rfl | rfl
    · exact ⟨by decide, Grammar.not_blank_of_all (by decide)⟩
    · exact ⟨by decide, Grammar.not_blank_of_all (by decide)⟩
  obtain ⟨h, hparse, hsame⟩ := hback.2 fun w hw t ht => by
    obtain ⟨_, _, _, hrun⟩ := hw
    exact hclean t (hrun.mem_input (Pushdown.wellFormed_of_readPushdown hread) t ht)
  exact ⟨p, out, h, hread, hout, hparse, hsame⟩

/-- A token with a bar in it is read as two rules. -/
theorem pushdownToGrammar_barred : ∃ p out,
    readPushdown "q".toList "r".toList "q r a|b,~ -> ~".toList = .ok p ∧ p.Accepts ["a|b"] ∧
    pushdownToGrammar "q".toList "r".toList "q r a|b,~ -> ~".toList = .ok out ∧
    ¬ ∃ h, Grammar.parse p.input out = .ok h ∧ ∀ w, h.Derives w ↔ p.Accepts w := by
  have hparts : (readPushdown "q".toList "r".toList "q r a|b,~ -> ~".toList).map parts =
      .ok ([0, 1], ["a|b"], 0, [⟨0, some "a|b", none, 1, none⟩], [1]) := by decide +kernel
  obtain ⟨p, hread, hparts⟩ := exists_of_map_eq_ok hparts
  simp only [parts, Prod.mk.injEq] at hparts
  obtain ⟨hstates, hinput, hstart, hmoves, haccept⟩ := hparts
  have haccepts : p.Accepts ["a|b"] := by
    have hmove : ⟨0, some "a|b", none, 1, none⟩ ∈ p.moves := by
      rw [← ExtTreeSet.mem_toList, hmoves]
      exact List.mem_singleton_self _
    have hfinal : 1 ∈ p.accept := by
      rw [← ExtTreeSet.mem_toList, haccept]
      exact List.mem_singleton_self 1
    exact ⟨1, hfinal, [], hstart ▸ Pushdown.Run.single hmove []⟩
  obtain ⟨g, hout, -⟩ := exists_pushdownToGrammar_eq hread
    (room_of_readPushdown hread (by rw [hstates, hmoves]; decide))
    (fun _ _ q _ r _ => way_not_mem_input (by rw [hinput]; decide) q r)
  refine ⟨p, _, hread, haccepts, hout, ?_⟩
  rintro ⟨h, hparse, hsame⟩
  have hword := Grammar.isWord_of_derives hparse ((hsame _).2 haccepts) (List.mem_singleton_self _)
  exact hword.not_bar (by decide)

end FormalLanguages.Requests
