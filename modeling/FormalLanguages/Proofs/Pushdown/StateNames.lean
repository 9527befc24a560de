import FormalLanguages.Proofs.Pushdown.Reading
import FormalLanguages.Proofs.Sets

/-!
# The names of the states of a pushdown automaton

The states of an automaton that is read are the places of the different names in its text, in the
order in which they come first, and its moves are those that the lines write. Hence other names in
the same places, as different from one another as the old ones, give the same automaton.
-/

namespace FormalLanguages

open Std
open Text (contentLines fields items trim)

/-! ### Other values in the same places -/

section EraseDups

variable {α β : Type} [BEq α] [LawfulBEq α] [BEq β] [LawfulBEq β] {l : List α} {f : α → β} {a : α}

theorem eraseDups_map (h : ∀ a ∈ l, ∀ b ∈ l, f a = f b → a = b) :
    (l.map f).eraseDups = l.eraseDups.map f := by
  induction l using List.reverseRecOn with
  | nil => rfl
  | append_singleton l a ih =>
    have ih := ih fun b hb c hc => h b (List.mem_append_left _ hb) c (List.mem_append_left _ hc)
    rw [List.map_append, List.map_singleton]
    by_cases ha : a ∈ l
    · rw [eraseDups_concat_of_mem ha, eraseDups_concat_of_mem (List.mem_map_of_mem ha), ih]
    · have hfa : f a ∉ l.map f := by
        intro hmem
        obtain ⟨b, hb, heq⟩ := List.mem_map.1 hmem
        have hsame := h b (List.mem_append_left _ hb) a (by simp) heq
        exact ha (hsame ▸ hb)
      rw [eraseDups_concat_of_not_mem ha, eraseDups_concat_of_not_mem hfa, ih, List.map_append,
        List.map_singleton]

theorem idxOf_eraseDups_map (h : ∀ a ∈ l, ∀ b ∈ l, f a = f b → a = b) (ha : a ∈ l) :
    (l.map f).eraseDups.idxOf (f a) = l.eraseDups.idxOf a := by
  have hplace : (l.map f).eraseDups[l.eraseDups.idxOf a]? = some (f a) := by
    rw [eraseDups_map h, List.getElem?_map, getElem?_eraseDups_eq_some_iff.2 ⟨ha, rfl⟩]
    rfl
  exact (getElem?_eraseDups_eq_some_iff.1 hplace).2.symm

end EraseDups

namespace LineFormat

variable {start accept moves line s : List Char} {p : Pushdown} {l : MoveLine}
  {ls : List MoveLine} {ρ : List Char → List Char} {x : Option String}

/-! ### What a line writes -/

/-- A symbol, or nothing, as it is written. Either glyph for the empty word, alone between blanks,
stands for nothing. -/
inductive Denotes (s : List Char) : Option String → Prop
  | nothing : trim s = ['ε'] ∨ trim s = ['~'] → Denotes s none
  | symbol : trim s ≠ [] → trim s ≠ ['ε'] → trim s ≠ ['~'] → Denotes s (some (.ofList (trim s)))

theorem readOptional_of_glyph (h : trim s = ['ε'] ∨ trim s = ['~']) : readOptional s = none := by
  unfold readOptional
  rcases h with h | h <;> rw [h] <;> rfl

theorem readOptional_of_ne (hε : trim s ≠ ['ε']) (htilde : trim s ≠ ['~']) :
    readOptional s = some (.ofList (trim s)) := by
  have hsame : normalizeEpsilon (trim s) = trim s := by
    unfold normalizeEpsilon
    split
    · next c heq =>
      rw [heq] at hε htilde
      rw [heq, if_neg]
      rw [isEpsilonGlyph, Bool.or_eq_true, beq_iff_eq, beq_iff_eq, not_or]
      exact ⟨fun h => hε (congrArg ([·]) h), fun h => htilde (congrArg ([·]) h)⟩
    · rfl
  rw [readOptional, hsame]
  exact if_neg hε

theorem denotes_iff : Denotes s x ↔ trim s ≠ [] ∧ readOptional s = x := by
  constructor
  · rintro (h | ⟨hne, hε, htilde⟩)
    · refine ⟨?_, readOptional_of_glyph h⟩
      rcases h with h | h <;> rw [h] <;> exact List.cons_ne_nil _ _
    · exact ⟨hne, readOptional_of_ne hε htilde⟩
  · rintro ⟨hne, rfl⟩
    by_cases h : trim s = ['ε'] ∨ trim s = ['~']
    · rw [readOptional_of_glyph h]
      exact .nothing h
    · obtain ⟨hε, htilde⟩ := not_or.1 h
      rw [readOptional_of_ne hε htilde]
      exact .symbol hne hε htilde

/-- The line has the names of two states, and behind them what the move reads, what it pops and
what it pushes. Further commas and arrows belong to the symbols. -/
def Says (line source target : List Char) (read pop push : Option String) : Prop :=
  ∃ label before between behind, fields line = source :: target :: label ∧
    List.intercalate [' '] label = before ++ ',' :: between ++ '-' :: '>' :: behind ∧
    ',' ∉ before ∧ ¬ ['-', '>'] <:+: before ++ ',' :: between ++ ['-'] ∧
    Denotes before read ∧ Denotes between pop ∧ Denotes behind push

/-- A text is cut at its first comma. -/
theorem cut_comma_eq_some_iff {before after : List Char} :
    Text.cut [','] s = some (before, after) ↔ s = before ++ ',' :: after ∧ ',' ∉ before := by
  have hinfix : [','] <:+: before ↔ ',' ∈ before := by
    refine ⟨fun h => h.subset (List.mem_singleton_self ','), fun h => ?_⟩
    obtain ⟨l, r, rfl⟩ := List.append_of_mem h
    exact ⟨l, r, List.append_assoc ..⟩
  rw [Text.cut_eq_some_iff (List.cons_ne_nil _ _), List.dropLast_singleton, List.append_nil,
    hinfix, List.append_assoc, List.singleton_append]

theorem readMove?_eq_some_iff :
    readMove? line = some l ↔ Says line l.source l.target l.read l.pop l.push := by
  unfold readMove? Says
  simp only [denotes_iff]
  split
  · next source target label hfields =>
    simp only [hfields, Option.bind_eq_bind, Option.bind_eq_some_iff, Prod.exists,
      Text.cut_eq_some_iff (List.cons_ne_nil '-' ['>']), cut_comma_eq_some_iff]
    constructor
    · rintro ⟨_, behind, ⟨hlabel, harrow⟩, before, between, ⟨rfl, hcomma⟩, h⟩
      split at h
      · cases h
      · next hany =>
        obtain rfl := Option.some.inj h
        simp only [List.any_cons, List.any_nil, Bool.or_eq_true, decide_eq_true_eq, not_or] at hany
        refine ⟨label, before, between, behind, rfl, ?_, hcomma, harrow, ⟨hany.1, rfl⟩,
          ⟨hany.2.1, rfl⟩, hany.2.2.1, rfl⟩
        rw [hlabel, List.append_assoc]
        rfl
    · rintro ⟨_, before, between, behind, heq, hlabel, hcomma, harrow, hread, hpop, hpush⟩
      obtain ⟨hsource, heq⟩ := List.cons_eq_cons.1 heq
      obtain ⟨htarget, rfl⟩ := List.cons_eq_cons.1 heq
      refine ⟨before ++ ',' :: between, behind, ⟨?_, harrow⟩, before, between, ⟨rfl, hcomma⟩, ?_⟩
      · rw [hlabel, List.append_assoc (before ++ ',' :: between)]
        rfl
      · rw [if_neg (by simp [hread.1, hpop.1, hpush.1]), hread.2, hpop.2, hpush.2, hsource, htarget]
  · next hfields =>
    constructor
    · intro h
      cases h
    · rintro ⟨label, _, _, _, heq, -⟩
      exact absurd heq (hfields _ _ label)

/-- The different names of states in the order in which they come first: the start, the accept
states, and the source and the target of each line. -/
def stateNames (start accept moves : List Char) : List (List Char) :=
  (trim start :: (items accept ++ (contentLines moves).flatMap fun line =>
    (fields line).take 2)).eraseDups

def Writes (names : List (List Char)) (line : List Char) (m : Pushdown.Move) : Prop :=
  ∃ source target pop push, Says line source target m.read pop push ∧
    names[m.source]? = some source ∧ m.pop = pop.map .named ∧
    names[m.target]? = some target ∧ m.push = push.map .named

theorem mem_states_addAccept {q r : State} : r ∈ (p.addAccept q).states ↔ r = q ∨ r ∈ p.states :=
  mem_insert_iff

theorem mem_accept_addAccept {q r : State} : r ∈ (p.addAccept q).accept ↔ r = q ∨ r ∈ p.accept :=
  mem_insert_iff

section Assembled

variable {g : List Char → State} {names : List (List Char)} {q : State}

theorem mem_states_foldl_addAccept :
    q ∈ (names.foldl (fun p name => p.addAccept (g name)) p).states ↔
      (∃ name ∈ names, q = g name) ∨ q ∈ p.states := by
  induction names generalizing p with
  | nil => simp
  | cons name names ih => simp [ih, mem_states_addAccept, or_assoc, or_left_comm]

theorem mem_accept_foldl_addAccept :
    q ∈ (names.foldl (fun p name => p.addAccept (g name)) p).accept ↔
      (∃ name ∈ names, q = g name) ∨ q ∈ p.accept := by
  induction names generalizing p with
  | nil => simp
  | cons name names ih => simp [ih, mem_accept_addAccept, or_assoc, or_left_comm]

theorem start_foldl_addAccept :
    (names.foldl (fun p name => p.addAccept (g name)) p).start = p.start :=
  List.foldlRecOn (motive := fun q : Pushdown => q.start = p.start) names _ rfl fun _ h _ _ => h

theorem start_assembled : (assembled g start names ls).start = g start := by
  rw [assembled, Pushdown.start_addMoves, start_foldl_addAccept]
  rfl

theorem mem_accept_assembled :
    q ∈ (assembled g start names ls).accept ↔ ∃ name ∈ names, q = g name := by
  rw [assembled, Pushdown.accept_addMoves, mem_accept_foldl_addAccept]
  exact or_iff_left ExtTreeSet.not_mem_empty

theorem mem_moves_assembled {m : Pushdown.Move} : m ∈ (assembled g start names ls).moves ↔
    ∃ l ∈ ls, l.toMove (g l.source) (g l.target) = m := by
  have hnone : m ∉ (Pushdown.ofStart (g start)).moves := ExtTreeSet.not_mem_empty
  rw [assembled, Pushdown.mem_moves_addMoves, Pushdown.moves_foldl_addAccept, or_iff_left hnone,
    List.mem_map]

theorem mem_states_assembled :
    q ∈ (assembled g start names ls).states ↔ ∃ name ∈ mentioned start names ls, q = g name := by
  rw [assembled, Pushdown.mem_states_addMoves, mem_states_foldl_addAccept]
  simp only [Pushdown.ofStart, mem_singleton_iff, mentioned, List.mem_cons, List.mem_append,
    List.mem_flatMap, List.mem_map, List.not_mem_nil, or_false]
  constructor
  · rintro (⟨m, ⟨l, hl, rfl⟩, rfl | rfl⟩ | ⟨name, hname, rfl⟩ | rfl)
    · exact ⟨l.source, .inr (.inr ⟨l, hl, .inl rfl⟩), rfl⟩
    · exact ⟨l.target, .inr (.inr ⟨l, hl, .inr rfl⟩), rfl⟩
    · exact ⟨name, .inr (.inl hname), rfl⟩
    · exact ⟨start, .inl rfl, rfl⟩
  · rintro ⟨name, rfl | hname | ⟨l, hl, rfl | rfl⟩, rfl⟩
    · exact .inr (.inr rfl)
    · exact .inr (.inl ⟨name, hname, rfl⟩)
    · exact .inl ⟨_, ⟨l, hl, rfl⟩, .inl rfl⟩
    · exact .inl ⟨_, ⟨l, hl, rfl⟩, .inr rfl⟩

end Assembled

theorem flatMap_take_fields {lines : List (List Char)} (h : lines.mapM readMove? = some ls) :
    (lines.flatMap fun line => (fields line).take 2) = ls.flatMap fun l => [l.source, l.target] := by
  induction mapM_eq_some_iff.1 h with
  | nil => rfl
  | cons hl _ ih =>
    obtain ⟨label, _, _, _, hfields, -⟩ := readMove?_eq_some_iff.1 hl
    rw [List.flatMap_cons, List.flatMap_cons, hfields, ih (mapM_eq_some_iff.2 ‹_›)]
    rfl

theorem stateNames_eq (h : (contentLines moves).mapM readMove? = some ls) :
    stateNames start accept moves = (mentioned (trim start) (items accept) ls).eraseDups := by
  rw [stateNames, flatMap_take_fields h, mentioned]

/-- The moves of the lines over the places of the names are those that the lines write. -/
theorem writes_iff {names : List (List Char)} {m : Pushdown.Move} :
    Writes names line m ↔ ∃ l, readMove? line = some l ∧ names[m.source]? = some l.source ∧
      names[m.target]? = some l.target ∧ l.toMove m.source m.target = m := by
  constructor
  · rintro ⟨source, target, pop, push, hsays, hsource, hpop, htarget, hpush⟩
    refine ⟨⟨source, target, m.read, pop, push⟩, readMove?_eq_some_iff.2 hsays, hsource, htarget, ?_⟩
    rw [MoveLine.toMove, ← hpop, ← hpush]
  · rintro ⟨l, hl, hsource, htarget, hm⟩
    refine ⟨l.source, l.target, l.pop, l.push, ?_, hsource, ?_, htarget, ?_⟩
    · rw [← hm]
      exact readMove?_eq_some_iff.1 hl
    · rw [← hm]
      rfl
    · rw [← hm]
      rfl

/-- The names that are met are the states in the order in which they are met first, and the moves
are those that the lines write. -/
structure IsNumbered (start : List Char) (accept lines names : List (List Char)) (p : Pushdown) :
    Prop where
  nodup : names.Nodup
  mem_states_iff : ∀ q, q ∈ p.states ↔ q < names.length
  start_eq : names[p.start]? = some start
  mem_accept_iff : ∀ q, q ∈ p.accept ↔ ∃ name ∈ accept, names[q]? = some name
  mem_moves_iff : ∀ m, m ∈ p.moves ↔ ∃ line ∈ lines, Writes names line m

theorem isNumbered_of_readPushdown (h : readPushdown start accept moves = .ok p) :
    IsNumbered (trim start) (items accept) (contentLines moves) (stateNames start accept moves)
      p := by
  obtain ⟨-, ls, hls, -, rfl⟩ := readPushdown_eq_ok_iff.1 h
  rw [stateNames_eq hls]
  generalize hmet : mentioned (trim start) (items accept) ls = met
  have hplace : ∀ {name q}, met.eraseDups[q]? = some name ↔ name ∈ met ∧ q = placeIn met name :=
    getElem?_eraseDups_eq_some_iff
  have hmem : ∀ {name}, name ∈ items accept → name ∈ met := by
    intro name hname
    rw [← hmet, mentioned]
    exact List.mem_cons_of_mem _ (List.mem_append_left _ hname)
  have hline : ∀ l ∈ ls, l.source ∈ met ∧ l.target ∈ met := by
    intro l hl
    rw [← hmet]
    simp only [mentioned, List.mem_cons, List.mem_append, List.mem_flatMap]
    exact ⟨.inr (.inr ⟨l, hl, .inl rfl⟩), .inr (.inr ⟨l, hl, .inr (.inl rfl)⟩)⟩
  constructor
  case nodup => exact nodup_eraseDups met
  case mem_states_iff =>
    intro q
    rw [mem_states_assembled, hmet]
    constructor
    · rintro ⟨name, hname, rfl⟩
      exact List.idxOf_lt_length_of_mem (List.mem_eraseDups.2 hname)
    · intro hq
      have hget := List.getElem?_eq_getElem hq
      exact ⟨_, (hplace.1 hget).1, (hplace.1 hget).2⟩
  case start_eq =>
    rw [start_assembled]
    refine hplace.2 ⟨?_, rfl⟩
    rw [← hmet]
    exact List.mem_cons_self ..
  case mem_accept_iff =>
    intro q
    rw [mem_accept_assembled]
    constructor
    · rintro ⟨name, hname, rfl⟩
      exact ⟨name, hname, hplace.2 ⟨hmem hname, rfl⟩⟩
    · rintro ⟨name, hname, hq⟩
      exact ⟨name, hname, (hplace.1 hq).2⟩
  case mem_moves_iff =>
    intro m
    rw [mem_moves_assembled]
    simp only [writes_iff]
    constructor
    · rintro ⟨l, hl, rfl⟩
      obtain ⟨line, hmem, hread⟩ := exists_left_of_forall₂ (mapM_eq_some_iff.1 hls) hl
      obtain ⟨hsource, htarget⟩ := hline l hl
      exact ⟨line, hmem, l, hread, hplace.2 ⟨hsource, rfl⟩, hplace.2 ⟨htarget, rfl⟩, rfl⟩
    · rintro ⟨line, hmem, l, hread, hsource, htarget, hm⟩
      obtain ⟨l', hl', hread'⟩ := exists_right_of_forall₂ (mapM_eq_some_iff.1 hls) hmem
      obtain rfl := Option.some.inj (hread.symm.trans hread')
      exact ⟨l, hl', by rw [← (hplace.1 hsource).2, ← (hplace.1 htarget).2, hm]⟩

/-! ### Other names for the states -/

section Renamed

variable {start' accept' moves' line' : List Char} {lines lines' : List (List Char)}

def MoveLine.rename (ρ : List Char → List Char) (l : MoveLine) : MoveLine :=
  { l with source := ρ l.source, target := ρ l.target }

/-- Fields behind the first two do not tell what these are. -/
theorem readMove?_rename
    (hline : fields line' = ((fields line).take 2).map ρ ++ (fields line).drop 2)
    (h : readMove? line = some l) : readMove? line' = some (l.rename ρ) := by
  obtain ⟨label, before, between, behind, hfields, hrest⟩ := readMove?_eq_some_iff.1 h
  refine readMove?_eq_some_iff.2 ⟨label, before, between, behind, ?_, hrest⟩
  rw [hline, hfields]
  rfl

theorem mapM_readMove?_rename (hlines : List.Forall₂ (fun line line' =>
      fields line' = ((fields line).take 2).map ρ ++ (fields line).drop 2) lines lines')
    (h : lines.mapM readMove? = some ls) :
    lines'.mapM readMove? = some (ls.map (MoveLine.rename ρ)) := by
  rw [mapM_eq_some_iff] at h ⊢
  induction hlines generalizing ls with
  | nil =>
    cases h
    exact .nil
  | cons hline _ ih =>
    cases h with
    | cons hl hls => exact .cons (readMove?_rename hline hl) (ih hls)

theorem mentioned_rename {names : List (List Char)} :
    mentioned (ρ start) (names.map ρ) (ls.map (MoveLine.rename ρ)) =
      (mentioned start names ls).map ρ := by
  simp only [mentioned, List.map_cons, List.map_append, List.map_flatMap, List.flatMap_map]
  rfl

/-- Names do not matter, as long as each of them has the same number. -/
theorem assembled_rename {names : List (List Char)} {g g' : List Char → State}
    (h : ∀ name ∈ mentioned start names ls, g' (ρ name) = g name) :
    assembled g' (ρ start) (names.map ρ) (ls.map (MoveLine.rename ρ)) =
      assembled g start names ls := by
  have hmem : ∀ name ∈ names, name ∈ mentioned start names ls := fun name hname =>
    List.mem_cons_of_mem _ (List.mem_append_left _ hname)
  have haccept : ∀ p : Pushdown, ∀ name ∈ names,
      p.addAccept (g' (ρ name)) = p.addAccept (g name) := by
    intro p name hname
    rw [h name (hmem name hname)]
  have hmove : ∀ l ∈ ls, (l.rename ρ).toMove (g' (ρ l.source)) (g' (ρ l.target)) =
      l.toMove (g l.source) (g l.target) := by
    intro l hl
    have hline : [l.source, l.target] ⊆ mentioned start names ls := by
      intro name hname
      refine List.mem_cons_of_mem _ (List.mem_append_right _ ?_)
      exact List.mem_flatMap.2 ⟨l, hl, hname⟩
    rw [h _ (hline (by simp)), h _ (hline (by simp))]
    rfl
  rw [assembled, assembled, List.foldl_map, List.map_map, h start (List.mem_cons_self ..),
    List.foldl_ext _ _ _ haccept]
  exact congrArg _ (List.map_congr_left hmove)

/-- Texts with other names in the same places, each as different from one another as the old ones
are, are read as the same automaton. -/
theorem readPushdown_of_renamed (h : readPushdown start accept moves = .ok p)
    (hρ : ∀ name ∈ stateNames start accept moves, ∀ other ∈ stateNames start accept moves,
      ρ name = ρ other → name = other)
    (hstart : trim start' = ρ (trim start)) (hne : trim start' ≠ [])
    (haccept : items accept' = (items accept).map ρ)
    (hlines : List.Forall₂ (fun line line' =>
      fields line' = ((fields line).take 2).map ρ ++ (fields line).drop 2)
        (contentLines moves) (contentLines moves')) :
    readPushdown start' accept' moves' = .ok p := by
  obtain ⟨-, ls, hls, hroom, rfl⟩ := readPushdown_eq_ok_iff.1 h
  rw [stateNames_eq hls] at hρ
  simp only [List.mem_eraseDups] at hρ
  rw [readPushdown_eq_ok_iff]
  refine ⟨hne, ls.map (MoveLine.rename ρ), mapM_readMove?_rename hlines hls, ?_⟩
  rw [hstart, haccept, mentioned_rename, eraseDups_map hρ, List.length_map]
  refine ⟨hroom, (assembled_rename fun name hname => ?_).symm⟩
  rw [placeIn, placeIn, idxOf_eraseDups_map hρ hname]

end Renamed

end LineFormat

end FormalLanguages
