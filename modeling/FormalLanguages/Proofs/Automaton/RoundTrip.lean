import FormalLanguages.LineFormat.Automata
import FormalLanguages.Proofs.Automaton.Constructions
import FormalLanguages.Proofs.Text

/-!
# Automata read, written and read again

An automaton that was read is written with one line for each of its moves, and the lines are read
as the same moves. Each line that was read says something about a move, so that no state is
forgotten.
-/

namespace FormalLanguages

open Std

/-! ### The moves one by one -/

namespace Moves

variable {m m' : Moves} {k : State × Label} {e : LineFormat.EdgeLine}
  {es : List LineFormat.EdgeLine}

def HasTargets (m : Moves) : Prop := ∀ k ∈ m, ∃ r, r ∈ m.getD k ∅

theorem mem_of_mem_getD {r : State} (h : r ∈ m.getD k ∅) : k ∈ m := by
  obtain ⟨e, he, rfl, -⟩ := exists_entry_iff.2 h
  exact mem_of_entry he

theorem HasTargets.eq_of_targets (hm : m.HasTargets) (hm' : m'.HasTargets)
    (h : ∀ k r, r ∈ m.getD k ∅ ↔ r ∈ m'.getD k ∅) : m = m' := by
  apply map_eq_of_getD_eq (d := ∅)
  · intro k
    constructor
    · intro hk
      obtain ⟨r, hr⟩ := hm k hk
      exact mem_of_mem_getD ((h k r).1 hr)
    · intro hk
      obtain ⟨r, hr⟩ := hm' k hk
      exact mem_of_mem_getD ((h k r).2 hr)
  · exact fun k => ExtTreeSet.ext_mem fun r => h k r

def edges (m : Moves) : List LineFormat.EdgeLine :=
  m.toList.flatMap fun (k, rs) => rs.toList.map fun r => ⟨k.1, r, [k.2]⟩

theorem mem_edges_iff : e ∈ m.edges ↔ ∃ a, e.labels = [a] ∧ e.target ∈ m.getD (e.source, a) ∅ := by
  simp only [edges, List.mem_flatMap, List.mem_map, ExtTreeSet.mem_toList, Prod.exists]
  constructor
  · rintro ⟨q, a, rs, he, r, hr, rfl⟩
    exact ⟨a, rfl, exists_entry_iff.1 ⟨_, he, rfl, hr⟩⟩
  · rintro ⟨a, ha, hr⟩
    obtain ⟨⟨k, rs⟩, he, rfl, hr⟩ := exists_entry_iff.2 hr
    exact ⟨e.source, a, rs, he, e.target, hr, by rw [← ha]⟩

def ofEdges (es : List LineFormat.EdgeLine) : Moves := es.foldl LineFormat.EdgeLine.addTo ∅

theorem ofEdges_eq_foldl (es : List LineFormat.EdgeLine) :
    ofEdges es = (es.flatMap fun e => e.labels.map fun a => (e, a)).foldl
      (fun m x => m.extend (x.1.source, x.2) {x.1.target}) ∅ := by
  rw [ofEdges, List.foldl_flatMap]
  simp only [List.foldl_map]
  rfl

theorem mem_getD_ofEdges {q r : State} {a : Label} : r ∈ (ofEdges es).getD (q, a) ∅ ↔
    ∃ e ∈ es, e.source = q ∧ a ∈ e.labels ∧ e.target = r := by
  rw [ofEdges_eq_foldl, mem_getD_foldl_extend]
  simp only [ExtTreeMap.getD_empty, ExtTreeSet.not_mem_empty, false_or, List.mem_flatMap,
    List.mem_map, Prod.exists, Prod.mk.injEq, mem_singleton_iff]
  constructor
  · rintro ⟨e, a, ⟨f, hf, b, hb, rfl, rfl⟩, ⟨hq, rfl⟩, hr⟩
    exact ⟨f, hf, hq, hb, hr.symm⟩
  · rintro ⟨e, he, hq, ha, hr⟩
    exact ⟨e, a, ⟨e, he, a, ha, rfl, rfl⟩, ⟨hq, rfl⟩, hr.symm⟩

theorem hasTargets_ofEdges (es : List LineFormat.EdgeLine) : (ofEdges es).HasTargets := by
  intro k hk
  rw [ofEdges_eq_foldl] at hk
  obtain ⟨⟨e, a⟩, he, rfl⟩ := (mem_foldl_extend.1 hk).resolve_left ExtTreeMap.not_mem_empty
  obtain ⟨f, hf, hlabel⟩ := List.mem_flatMap.1 he
  obtain ⟨b, hb, heq⟩ := List.mem_map.1 hlabel
  obtain ⟨rfl, rfl⟩ := Prod.mk.inj heq
  exact ⟨f.target, mem_getD_ofEdges.2 ⟨f, hf, rfl, hb, rfl⟩⟩

theorem mem_edges_ofEdges : e ∈ (ofEdges es).edges ↔
    ∃ f ∈ es, ∃ a ∈ f.labels, e = ⟨f.source, f.target, [a]⟩ := by
  rw [mem_edges_iff]
  constructor
  · rintro ⟨a, ha, hr⟩
    obtain ⟨f, hf, hsource, hlabel, htarget⟩ := mem_getD_ofEdges.1 hr
    exact ⟨f, hf, a, hlabel, by rw [hsource, htarget, ← ha]⟩
  · rintro ⟨f, hf, a, ha, rfl⟩
    exact ⟨a, rfl, mem_getD_ofEdges.2 ⟨f, hf, rfl, ha, rfl⟩⟩

/-- No state of an edge is forgotten, if the edge has a label. -/
theorem exists_edge_iff {q : State} (hes : ∀ e ∈ es, e.labels ≠ []) :
    (∃ e ∈ (ofEdges es).edges, q = e.source ∨ q = e.target) ↔
      ∃ e ∈ es, q = e.source ∨ q = e.target := by
  constructor
  · rintro ⟨e, he, hq⟩
    obtain ⟨f, hf, a, -, rfl⟩ := mem_edges_ofEdges.1 he
    exact ⟨f, hf, hq⟩
  · rintro ⟨e, he, hq⟩
    obtain ⟨a, ha⟩ := List.exists_mem_of_ne_nil _ (hes e he)
    exact ⟨_, mem_edges_ofEdges.2 ⟨e, he, a, ha, rfl⟩, hq⟩

/-- The edges of the moves have all there is in the moves. -/
theorem HasTargets.ofEdges_edges (hm : m.HasTargets) : ofEdges m.edges = m := by
  apply (hasTargets_ofEdges _).eq_of_targets hm
  rintro ⟨q, a⟩ r
  rw [mem_getD_ofEdges]
  constructor
  · rintro ⟨e, he, rfl, ha, rfl⟩
    obtain ⟨b, hb, hr⟩ := mem_edges_iff.1 he
    rw [hb, List.mem_singleton] at ha
    rwa [ha]
  · intro hr
    exact ⟨⟨q, r, [a]⟩, mem_edges_iff.2 ⟨a, rfl, hr⟩, rfl, List.mem_singleton_self a, rfl⟩

end Moves

namespace LineFormat

open Text

variable {line text : List Char} {a : Label} {e : EdgeLine} {q : State} {n : Nfa}

/-! ### Reading one item -/

theorem le_of_readNumeral? {bound value : Nat} (h : readNumeral? bound text = some value) :
    value ≤ bound := by
  unfold readNumeral? at h
  dsimp only at h
  split at h
  · next hok => exact Option.some.inj h ▸ hok.2.2
  · cases h

theorem not_isBlank_of_mem_numeral {m : Nat} {c : Char} (hc : c ∈ numeral m) : ¬ isBlank c :=
  not_isBlank_of_isDigit (isDigit_of_mem_numeral hc)

theorem ne_comma_of_mem_numeral {m : Nat} {c : Char} (hc : c ∈ numeral m) : c ≠ ',' := by
  rintro rfl
  exact absurd (isDigit_of_mem_numeral hc) (by decide)

theorem le_of_readState (h : readState text = .ok q) : q ≤ State.last := by
  unfold readState at h
  split at h
  · next hq => exact Except.ok.inj h ▸ le_of_readNumeral? hq
  · cases h

theorem readState_numeral (hq : q ≤ State.last) : readState (numeral q) = .ok q := by
  have htrim : trim (numeral q) = numeral q := by
    apply trim_eq_self
    · exact fun c hc => not_isBlank_of_mem_numeral (List.mem_of_mem_head? hc)
    · exact fun c hc => not_isBlank_of_mem_numeral (List.mem_of_mem_getLast? hc)
  rw [readState, htrim, readNumeral?_numeral hq]

theorem mapM_readState_items_intercalate {qs : List State} (hqs : ∀ q ∈ qs, q ≤ State.last) :
    (items (List.intercalate [','] (qs.map numeral))).mapM readState = .ok qs := by
  rw [items_intercalate, mapM_eq_ok_iff, List.forall₂_map_left_iff, List.forall₂_same]
  · exact fun q hq => readState_numeral (hqs q hq)
  · intro w hw
    obtain ⟨q, -, rfl⟩ := List.mem_map.1 hw
    exact ⟨Nat.toDigits_ne_nil, fun c hc =>
      ⟨ne_comma_of_mem_numeral hc, not_isBlank_of_mem_numeral hc⟩⟩

/-- A character that can be written as an item of its own. -/
def IsItem (c : Char) : Prop := c ≠ ',' ∧ ¬ isBlank c

theorem isItem_of_mem_items {c : Char} (h : [c] ∈ items text) : IsItem c :=
  ⟨ne_comma_of_mem_items h (List.mem_singleton_self c), not_isBlank_of_mem_items h⟩

theorem items_letters {cs : List Char} (hcs : ∀ c ∈ cs, IsItem c) :
    items (List.intercalate [','] (cs.map fun c => [c])) = cs.map fun c => [c] := by
  apply items_intercalate
  intro w hw
  obtain ⟨c, hc, rfl⟩ := List.mem_map.1 hw
  exact ⟨List.cons_ne_nil c [], fun d hd => List.mem_singleton.1 hd ▸ hcs c hc⟩

/-! ### Reading the alphabet -/

theorem letter_of_readAlphabet {A : Alphabet} (h : readAlphabet text = .ok A) :
    ∀ c ∈ A, IsItem c ∧ ¬ isEpsilonGlyph c := by
  unfold readAlphabet at h
  dsimp only at h
  split at h
  · next hall =>
    obtain rfl := Except.ok.inj h
    intro c hc
    rw [ExtTreeSet.mem_ofList, List.contains_iff_mem] at hc
    obtain ⟨item, hitem, hc⟩ := List.mem_flatten.1 hc
    have hletter := List.all_eq_true.1 hall item hitem
    simp only [Bool.and_eq_true, decide_eq_true_eq] at hletter
    obtain ⟨d, rfl⟩ := List.length_eq_one_iff.1 hletter.1
    obtain rfl := List.mem_singleton.1 hc
    exact ⟨isItem_of_mem_items hitem, by simpa using hletter.2⟩
  · cases h

theorem readAlphabet_letters {A : Alphabet} (hA : ∀ c ∈ A, IsItem c ∧ ¬ isEpsilonGlyph c) :
    readAlphabet (List.intercalate [','] (A.toList.map fun c => [c])) = .ok A := by
  have hmem : ∀ c ∈ A.toList, IsItem c ∧ ¬ isEpsilonGlyph c :=
    fun c hc => hA c (ExtTreeSet.mem_toList.1 hc)
  have hall : (A.toList.map fun c => [c]).all
      (fun item => item.length = 1 && !item.any isEpsilonGlyph) = true := by
    rw [List.all_map, List.all_eq_true]
    intro c hc
    simpa using (hmem c hc).2
  have hflatten : (A.toList.map fun c => [c]).flatten = A.toList :=
    List.flatMap_singleton' A.toList
  rw [readAlphabet, items_letters fun c hc => (hmem c hc).1, if_pos hall, hflatten,
    ofList_toList]

/-! ### Reading an edge -/

def IsWritable (a : Label) : Prop := IsItem a.toChar ∧ Label.ofChar a.toChar = a

namespace EdgeLine

structure IsReadable (e : EdgeLine) : Prop where
  source_le : e.source ≤ State.last
  target_le : e.target ≤ State.last
  ne_nil : e.labels ≠ []
  writable : ∀ a ∈ e.labels, IsWritable a

def writeLabels (e : EdgeLine) : List Char :=
  List.intercalate [','] ((e.labels.map Label.toChar).map fun c => [c])

def write (e : EdgeLine) : List Char :=
  List.intercalate [' '] [numeral e.source, numeral e.target, e.writeLabels]

end EdgeLine

theorem isWritable_of_readLabel? (h : readLabel? text = some a) (htext : text ∈ items line) :
    IsWritable a := by
  unfold readLabel? at h
  split at h
  · next c =>
    obtain rfl := Option.some.inj h
    have hitem := isItem_of_mem_items htext
    unfold IsWritable Label.ofChar
    split
    · exact ⟨by simp only [IsItem, Label.toChar]; decide, by decide⟩
    · next hc => exact ⟨hitem, if_neg hc⟩
  · cases h

theorem isReadable_of_readEdge? (h : readEdge? line = some e) : e.IsReadable := by
  unfold readEdge? at h
  split at h
  · next source target labels hfields =>
    simp only [Option.bind_eq_bind, Option.bind_eq_some_iff] at h
    obtain ⟨q, hq, r, hr, as, has, h⟩ := h
    split at h
    · cases h
    · next hne =>
      obtain rfl := Option.some.inj h
      refine ⟨le_of_readNumeral? hq, le_of_readNumeral? hr, hne, fun a ha => ?_⟩
      obtain ⟨item, hitem, hlabel⟩ := exists_left_of_forall₂ (mapM_eq_some_iff.1 has) ha
      exact isWritable_of_readLabel? hlabel hitem
  · cases h

namespace EdgeLine.IsReadable

variable (he : e.IsReadable)
include he

theorem items_writeLabels : items e.writeLabels = (e.labels.map Label.toChar).map fun c => [c] := by
  apply items_letters
  intro c hc
  obtain ⟨a, ha, rfl⟩ := List.mem_map.1 hc
  exact (he.writable a ha).1

theorem writeLabels_ne_nil : e.writeLabels ≠ [] := by
  intro hnil
  have hitems := he.items_writeLabels
  rw [hnil] at hitems
  exact he.ne_nil (by simpa [items, split, trim, trimStart, trimEnd] using hitems)

theorem not_isBlank_of_mem_writeLabels {c : Char} (hc : c ∈ e.writeLabels) : ¬ isBlank c := by
  rcases mem_intercalate hc with hc | ⟨w, hw, hc⟩
  · rw [List.mem_singleton.1 hc]
    decide
  · obtain ⟨d, hd, rfl⟩ := List.mem_map.1 hw
    obtain ⟨a, ha, rfl⟩ := List.mem_map.1 hd
    rw [List.mem_singleton.1 hc]
    exact (he.writable a ha).1.2

theorem word_of_mem {w : List Char} (hw : w ∈ [numeral e.source, numeral e.target, e.writeLabels]) :
    w ≠ [] ∧ ∀ c ∈ w, ¬ isBlank c := by
  simp only [List.mem_cons, List.not_mem_nil, or_false] at hw
  rcases hw with rfl | rfl | rfl
  · exact ⟨Nat.toDigits_ne_nil, fun c => not_isBlank_of_mem_numeral⟩
  · exact ⟨Nat.toDigits_ne_nil, fun c => not_isBlank_of_mem_numeral⟩
  · exact ⟨he.writeLabels_ne_nil, fun c => he.not_isBlank_of_mem_writeLabels⟩

theorem fields_write : fields e.write = [numeral e.source, numeral e.target, e.writeLabels] :=
  fields_intercalate fun _ => he.word_of_mem

theorem readEdge?_write : readEdge? e.write = some e := by
  have hlabels : (items e.writeLabels).mapM readLabel? = some e.labels := by
    rw [he.items_writeLabels, mapM_eq_some_iff, List.map_map, List.forall₂_map_left_iff,
      List.forall₂_same]
    exact fun a ha => congrArg some (he.writable a ha).2
  rw [readEdge?, he.fields_write]
  simp only [readNumeral?_numeral he.source_le, readNumeral?_numeral he.target_le, hlabels,
    Option.bind_eq_bind, Option.bind_some, if_neg he.ne_nil]

theorem readEdge?_trim_write : readEdge? (trim e.write) = some e := by
  rw [← he.readEdge?_write, readEdge?, readEdge?, fields_trim]

theorem trim_write_ne_nil : trim e.write ≠ [] := by
  intro hnil
  have hfields := he.fields_write
  rw [← fields_trim, hnil] at hfields
  cases hfields

theorem newline_not_mem_write : '\n' ∉ e.write := by
  intro h
  rcases mem_intercalate h with h | ⟨w, hw, h⟩
  · exact absurd h (by decide)
  · exact (he.word_of_mem hw).2 '\n' h (by decide)

end EdgeLine.IsReadable

/-! ### Reading the edges -/

theorem readEdges_flatMap_write {es : List EdgeLine} (hes : ∀ e ∈ es, e.IsReadable) :
    readEdges (es.flatMap fun e => e.write ++ ['\n']) = .ok es := by
  have htext : es.flatMap (fun e => e.write ++ ['\n']) =
      (es.map EdgeLine.write).flatMap fun l => l ++ ['\n'] := by
    rw [List.flatMap_map]
  have hlines : ∀ l ∈ es.map EdgeLine.write, '\n' ∉ l := by
    intro l hl
    obtain ⟨e, he, rfl⟩ := List.mem_map.1 hl
    exact (hes e he).newline_not_mem_write
  have hcontent : (((es.map EdgeLine.write).map trim).filter (· ≠ [])) =
      (es.map EdgeLine.write).map trim := by
    apply List.filter_eq_self.2
    intro l hl
    rw [List.map_map] at hl
    obtain ⟨e, he, rfl⟩ := List.mem_map.1 hl
    simpa using (hes e he).trim_write_ne_nil
  rw [readEdges, htext, contentLines_flatMap hlines, hcontent, mapM_eq_ok_iff, List.map_map,
    List.forall₂_map_left_iff, List.forall₂_same]
  intro e he
  simp only [Function.comp_apply, (hes e he).readEdge?_trim_write]

theorem isReadable_of_readEdges {es : List EdgeLine} (h : readEdges text = .ok es) :
    ∀ e ∈ es, e.IsReadable := by
  intro e he
  obtain ⟨line, -, hline⟩ := exists_left_of_forall₂ (mapM_eq_ok_iff.1 h) he
  split at hline
  · next hread => exact Except.ok.inj hline ▸ isReadable_of_readEdge? hread
  · cases hline

theorem printEdges_eq (m : Moves) :
    printEdges m = m.edges.flatMap fun e => e.write ++ ['\n'] := by
  simp [printEdges, Moves.edges, EdgeLine.write, EdgeLine.writeLabels, List.flatMap_assoc,
    List.flatMap_map, List.intercalate]

theorem newline_not_mem_numeral (q : State) : '\n' ∉ numeral q :=
  fun h => not_isBlank_of_mem_numeral h (by decide)

/-- The lines after the first two are those of the edges. -/
theorem edges_printNfa (n : Nfa) :
    List.intercalate ['\n'] ((lines (printNfa n)).drop 2) = printEdges n.moves := by
  have hstart : '\n' ∉ "start: ".toList ++ numeral n.start := by
    rw [List.mem_append, not_or]
    exact ⟨by decide, newline_not_mem_numeral n.start⟩
  have haccept : '\n' ∉
      "accept: ".toList ++ List.intercalate [','] (n.accept.toList.map numeral) := by
    rw [List.mem_append, not_or]
    refine ⟨by decide, fun h => ?_⟩
    rcases mem_intercalate h with h | ⟨w, hw, h⟩
    · exact absurd h (by decide)
    · obtain ⟨q, -, rfl⟩ := List.mem_map.1 hw
      exact newline_not_mem_numeral q h
  have hmark : "\naccept: ".toList = '\n' :: "accept: ".toList := by decide
  unfold printNfa
  rw [hmark]
  generalize "start: ".toList = s at hstart
  generalize "accept: ".toList = a at haccept
  have htext : ∀ b t : List Char, s ++ numeral n.start ++ '\n' :: a ++ (b ++ '\n' :: t) =
      s ++ numeral n.start ++ '\n' :: (a ++ b ++ '\n' :: t) := by simp
  rw [List.append_assoc, htext, lines_append_cons hstart, lines_append_cons haccept,
    List.drop_succ_cons, List.drop_succ_cons, List.drop_zero, lines,
    split_eq_splitOnP]
  exact List.intercalate_splitOn '\n'

/-! ### Reading an automaton -/

/-- The automaton has what its edges say and no more. -/
structure IsRead (n : Nfa) : Prop where
  letters : ∀ c ∈ n.alphabet, IsItem c ∧ ¬ isEpsilonGlyph c
  start_le : n.start ≤ State.last
  accept_le : ∀ q ∈ n.accept, q ≤ State.last
  edges : ∀ e ∈ n.moves.edges, e.IsReadable
  hasTargets : n.moves.HasTargets
  mem_states : ∀ q, q ∈ n.states ↔
    q = n.start ∨ q ∈ n.accept ∨ ∃ e ∈ n.moves.edges, q = e.source ∨ q = e.target

def assemble (A : Alphabet) (start : State) (accept : List State) (es : List EdgeLine) : Nfa where
  states := .ofList (start :: accept ++ es.flatMap fun e => [e.source, e.target])
  alphabet := A
  start := start
  moves := Moves.ofEdges es
  accept := .ofList accept

section Assemble

variable {alphabet start accept edges : List Char} {A : Alphabet} {qs : List State}
  {es : List EdgeLine}

theorem readNfa_eq_ok_iff : readNfa alphabet start accept edges = .ok n ↔
    ∃ A q qs es, readAlphabet alphabet = .ok A ∧ readState start = .ok q ∧
      (items accept).mapM readState = .ok qs ∧ readEdges edges = .ok es ∧
      assemble A q qs es = n := by
  constructor
  · intro h
    obtain ⟨A, hA, h⟩ := exists_of_bind_eq_ok h
    obtain ⟨q, hq, h⟩ := exists_of_bind_eq_ok h
    obtain ⟨qs, hqs, h⟩ := exists_of_bind_eq_ok h
    obtain ⟨es, hes, h⟩ := exists_of_bind_eq_ok h
    exact ⟨A, q, qs, es, hA, hq, hqs, hes, Except.ok.inj h⟩
  · rintro ⟨A, q, qs, es, hA, hq, hqs, hes, rfl⟩
    rw [readNfa, hA, hq, hqs, hes]
    rfl

theorem mem_accept_assemble {r : State} : q ∈ (assemble A r qs es).accept ↔ q ∈ qs := by
  simp [assemble, ExtTreeSet.mem_ofList]

theorem mem_states_assemble {r : State} : q ∈ (assemble A r qs es).states ↔
    q = r ∨ q ∈ qs ∨ ∃ e ∈ es, q = e.source ∨ q = e.target := by
  simp [assemble, ExtTreeSet.mem_ofList]

theorem isRead_of_readNfa (h : readNfa alphabet start accept edges = .ok n) : IsRead n := by
  obtain ⟨A, q, qs, es, hA, hq, hqs, hes, rfl⟩ := readNfa_eq_ok_iff.1 h
  have hread := isReadable_of_readEdges hes
  constructor
  case letters => exact letter_of_readAlphabet hA
  case start_le => exact le_of_readState hq
  case accept_le =>
    intro r hr
    obtain ⟨item, -, hitem⟩ :=
      exists_left_of_forall₂ (mapM_eq_ok_iff.1 hqs) (mem_accept_assemble.1 hr)
    exact le_of_readState hitem
  case edges =>
    intro e he
    obtain ⟨f, hf, a, ha, rfl⟩ := Moves.mem_edges_ofEdges.1 he
    have hf := hread f hf
    refine ⟨hf.source_le, hf.target_le, List.cons_ne_nil a [], fun b hb => ?_⟩
    exact List.mem_singleton.1 hb ▸ hf.writable a ha
  case hasTargets => exact Moves.hasTargets_ofEdges es
  case mem_states =>
    intro r
    rw [mem_states_assemble, mem_accept_assemble, assemble,
      Moves.exists_edge_iff fun e he => (hread e he).ne_nil]

end Assemble

theorem IsRead.assemble_eq (hn : IsRead n) :
    assemble n.alphabet n.start n.accept.toList n.moves.edges = n := by
  have hstates : (assemble n.alphabet n.start n.accept.toList n.moves.edges).states =
      n.states := by
    apply ExtTreeSet.ext_mem
    intro q
    rw [mem_states_assemble, hn.mem_states, ExtTreeSet.mem_toList]
  unfold assemble at hstates ⊢
  dsimp only at hstates
  rw [hstates, hn.hasTargets.ofEdges_edges, ofList_toList]

/-- An automaton of this kind is read from its own text. -/
theorem IsRead.readNfa_printed (hn : IsRead n) :
    readNfa (List.intercalate [','] (n.alphabet.toList.map fun c => [c])) (numeral n.start)
      (List.intercalate [','] (n.accept.toList.map numeral)) (printEdges n.moves) = .ok n := by
  have haccept : ∀ q ∈ n.accept.toList, q ≤ State.last :=
    fun q hq => hn.accept_le q (ExtTreeSet.mem_toList.1 hq)
  have hedges : readEdges (printEdges n.moves) = .ok n.moves.edges := by
    rw [printEdges_eq]
    exact readEdges_flatMap_write hn.edges
  exact readNfa_eq_ok_iff.2 ⟨n.alphabet, n.start, n.accept.toList, n.moves.edges,
    readAlphabet_letters hn.letters, readState_numeral hn.start_le,
    mapM_readState_items_intercalate haccept, hedges, hn.assemble_eq⟩

/-- An automaton that was read is read again from its letters, its start, its accept states and the
lines that are written for its edges. -/
theorem readNfa_printNfa {alphabet start accept edges : List Char}
    (h : readNfa alphabet start accept edges = .ok n) :
    readNfa (List.intercalate [','] (n.alphabet.toList.map fun c => [c])) (numeral n.start)
      (List.intercalate [','] (n.accept.toList.map numeral))
      (List.intercalate ['\n'] ((lines (printNfa n)).drop 2)) = .ok n := by
  rw [edges_printNfa]
  exact (isRead_of_readNfa h).readNfa_printed

/-- Blanks, signs, leading zeros and the other glyph for the empty word are gone from the text that
is written. -/
theorem readNfa_printNfa_loose : ∃ n,
    readNfa " b ,a".toList "+01".toList "3,1, 1".toList
      "1 3 a,~\x0d\n\n 3\u3000007 -,ε,b\n".toList = .ok n ∧
    n.states.toList = [1, 3, 7] ∧
    printNfa n = "start: 1\naccept: 1,3\n1 3 ε\n1 3 a\n3 7 ε\n3 7 -\n3 7 b\n".toList ∧
    readNfa "a,b".toList "1".toList "1,3".toList "1 3 ε\n1 3 a\n3 7 ε\n3 7 -\n3 7 b\n".toList =
      .ok n := by
  have hread : (readNfa " b ,a".toList "+01".toList "3,1, 1".toList
      "1 3 a,~\x0d\n\n 3\u3000007 -,ε,b\n".toList).map (fun n =>
        (n.states.toList, [printNfa n,
          List.intercalate [','] (n.alphabet.toList.map fun c => [c]), numeral n.start,
          List.intercalate [','] (n.accept.toList.map numeral),
          List.intercalate ['\n'] ((lines (printNfa n)).drop 2)])) =
      .ok ([1, 3, 7], ["start: 1\naccept: 1,3\n1 3 ε\n1 3 a\n3 7 ε\n3 7 -\n3 7 b\n".toList,
        "a,b".toList, "1".toList, "1,3".toList,
        "1 3 ε\n1 3 a\n3 7 ε\n3 7 -\n3 7 b\n".toList]) := by
    decide +kernel
  obtain ⟨n, hn, hfacts⟩ := exists_of_map_eq_ok hread
  obtain ⟨hstates, htexts⟩ := Prod.mk.inj hfacts
  simp only [List.cons.injEq, and_true] at htexts
  obtain ⟨hprinted, halphabet, hstart, haccept, hedges⟩ := htexts
  have hagain := readNfa_printNfa hn
  rw [halphabet, hstart, haccept, hedges] at hagain
  exact ⟨n, hn, hstates, hprinted, hagain⟩

end LineFormat

end FormalLanguages
