import FormalLanguages.Proofs.Pushdown.StateNames

/-!
# Other names in the text of a pushdown automaton

When the names of states are replaced where they stand, and everything else in the text is left as
it is, the automaton that is read stays the same. All that matters is which names are equal.
-/

namespace FormalLanguages

open Std
open Text (contentLines fields isBlank items lines split trim trimStart)

namespace Text

variable {s l r w : List Char}

def BlankFirst (s : List Char) : Prop := ∀ c ∈ s.head?, isBlank c

theorem fields_word_append (hne : w ≠ []) (hw : ∀ c ∈ w, ¬ isBlank c) (hr : BlankFirst r) :
    fields (w ++ r) = w :: fields r := by
  cases r with
  | nil => rw [List.append_nil, fields_eq_singleton hne hw, fields_nil]
  | cons c r =>
    have hc : isBlank c := hr c rfl
    rw [fields_append_cons hc, fields_eq_singleton hne hw, fields_blank_cons hc,
      List.singleton_append]

/-- A text that is not blank consists of blanks, a word, and a rest that begins with a blank. -/
theorem exists_word (h : trimStart s ≠ []) :
    s = s.takeWhile isBlank ++ (trimStart s).takeWhile (fun c => !isBlank c) ++
        (trimStart s).dropWhile (fun c => !isBlank c) ∧
      (trimStart s).takeWhile (fun c => !isBlank c) ≠ [] ∧
      (∀ c ∈ (trimStart s).takeWhile (fun c => !isBlank c), ¬ isBlank c) ∧
      BlankFirst ((trimStart s).dropWhile fun c => !isBlank c) := by
  refine ⟨?_, ?_, ?_, ?_⟩
  · rw [List.append_assoc, List.takeWhile_append_dropWhile]
    exact List.takeWhile_append_dropWhile.symm
  · obtain ⟨c, t, hs⟩ := List.exists_cons_of_ne_nil h
    have hc : ¬ isBlank c := by
      have hhead := List.head?_dropWhile_not isBlank s
      rw [← trimStart, hs] at hhead
      simpa using hhead
    rw [hs, List.takeWhile_cons_of_pos (by simpa using hc)]
    exact List.cons_ne_nil _ _
  · intro c hc
    simpa using List.mem_takeWhile_imp hc
  · intro c hc
    have hhead := List.head?_dropWhile_not (fun c => !isBlank c) (trimStart s)
    rw [Option.mem_def.1 hc] at hhead
    simpa using hhead

theorem fields_of_trimStart_ne_nil (h : trimStart s ≠ []) :
    fields s = (trimStart s).takeWhile (fun c => !isBlank c) ::
      fields ((trimStart s).dropWhile fun c => !isBlank c) := by
  obtain ⟨hparts, hne, hword, hfirst⟩ := exists_word h
  have hblank : ∀ c ∈ s.takeWhile isBlank, isBlank c := fun c hc => List.mem_takeWhile_imp hc
  calc fields s = _ := congrArg fields hparts
    _ = _ := by
      rw [List.append_assoc, fields_blank_append hblank, fields_word_append hne hword hfirst]

theorem fields_eq_nil_iff : fields s = [] ↔ trim s = [] := by
  rw [trim_eq_nil_iff]
  refine ⟨fun h => ?_, fields_eq_nil⟩
  by_contra hblank
  have hs : trimStart s ≠ [] := fun hnil => hblank (List.dropWhile_eq_nil_iff.1 hnil)
  rw [fields_of_trimStart_ne_nil hs] at h
  cases h

end Text

namespace LineFormat

open Text

variable {start accept moves s : List Char} {p : Pushdown} {ρ : List Char → List Char} {n : Nat}

/-- Another name in the place of a name between blanks. -/
def renameItem (ρ : List Char → List Char) (s : List Char) : List Char :=
  if trim s = [] then s
  else s.takeWhile isBlank ++ ρ (trim s) ++ ((trimStart s).reverse.takeWhile isBlank).reverse

def renameItems (ρ : List Char → List Char) (s : List Char) : List Char :=
  List.intercalate [','] ((split (· == ',') s).map (renameItem ρ))

def renameFields (ρ : List Char → List Char) : Nat → List Char → List Char
  | 0, s => s
  | n + 1, s =>
    let rest := trimStart s
    if rest = [] then s
    else s.takeWhile isBlank ++ ρ (rest.takeWhile fun c => !isBlank c) ++
      renameFields ρ n (rest.dropWhile fun c => !isBlank c)

/-- Other names for the source and the target of each line. -/
def renameLines (ρ : List Char → List Char) (s : List Char) : List Char :=
  List.intercalate ['\n'] ((lines s).map (renameFields ρ 2))

structure IsPlain (name : List Char) : Prop where
  ne_nil : name ≠ []
  not_blank : ∀ c ∈ name, ¬ isBlank c
  not_comma : ',' ∉ name

theorem isPlain_singleton {c : Char} (hblank : ¬ isBlank c) (hcomma : c ≠ ',') : IsPlain [c] where
  ne_nil := List.cons_ne_nil c []
  not_blank _ hd := List.mem_singleton.1 hd ▸ hblank
  not_comma h := hcomma (List.mem_singleton.1 h).symm

theorem trim_renameItem (hs : trim s ≠ []) (hρ : IsPlain (ρ (trim s))) :
    trim (renameItem ρ s) = ρ (trim s) := by
  rw [renameItem, if_neg hs]
  apply trim_append
  · exact fun c hc => List.mem_takeWhile_imp hc
  · exact fun c hc => List.mem_takeWhile_imp (List.mem_reverse.1 hc)
  · exact fun c hc => hρ.not_blank c (List.mem_of_mem_head? hc)
  · exact fun c hc => hρ.not_blank c (List.mem_of_mem_getLast? hc)

theorem not_mem_renameItem {c : Char} (hc : ¬ isBlank c) (hs : c ∉ s)
    (hρ : trim s ≠ [] → c ∉ ρ (trim s)) : c ∉ renameItem ρ s := by
  rw [renameItem]
  split
  · exact hs
  · next hne =>
    rw [List.mem_append, List.mem_append, not_or, not_or]
    refine ⟨⟨fun h => hc (List.mem_takeWhile_imp h), hρ hne⟩, fun h => ?_⟩
    exact hc (List.mem_takeWhile_imp (List.mem_reverse.1 h))

theorem items_renameItems (hρ : ∀ name ∈ items s, IsPlain (ρ name)) :
    items (renameItems ρ s) = (items s).map ρ := by
  have hplain : ∀ piece ∈ split (· == ',') s, trim piece ≠ [] → IsPlain (ρ (trim piece)) := by
    intro piece hpiece hne
    exact hρ _ (List.mem_filter.2 ⟨List.mem_map_of_mem hpiece, by simpa using hne⟩)
  have hsplit : split (· == ',') (renameItems ρ s) = (split (· == ',') s).map (renameItem ρ) := by
    rw [renameItems, split_eq_splitOnP]
    apply List.splitOn_intercalate ','
    · intro piece hpiece
      obtain ⟨old, hold, rfl⟩ := List.mem_map.1 hpiece
      refine not_mem_renameItem (by decide) ?_ fun hne => (hplain old hold hne).not_comma
      exact fun h => (mem_of_mem_split hold h).2 rfl
    · rw [ne_eq, List.map_eq_nil_iff, split_eq_splitOnP]
      exact List.splitOnP_ne_nil _ s
  rw [items, hsplit, items]
  generalize split (· == ',') s = pieces at hplain
  induction pieces with
  | nil => rfl
  | cons piece pieces ih =>
    have ih := ih fun other h => hplain other (List.mem_cons_of_mem _ h)
    rw [List.map_cons, List.map_cons, List.map_cons, List.filter_cons, List.filter_cons, ih]
    by_cases hne : trim piece = []
    · rw [renameItem, if_pos hne, hne]
      rfl
    · have hpiece := hplain piece (List.mem_cons_self ..) hne
      rw [trim_renameItem hne hpiece, if_pos (by simpa using hpiece.ne_nil),
        if_pos (by simpa using hne), List.map_cons]

theorem blankFirst_renameFields (h : BlankFirst s) : BlankFirst (renameFields ρ n s) := by
  cases n with
  | zero => exact h
  | succ n =>
    rw [renameFields]
    split
    · exact h
    · cases s with
      | nil => contradiction
      | cons c s =>
        rw [List.takeWhile_cons_of_pos (h c rfl)]
        exact h

theorem fields_renameFields (hρ : ∀ name ∈ (fields s).take n, IsPlain (ρ name)) :
    fields (renameFields ρ n s) = ((fields s).take n).map ρ ++ (fields s).drop n := by
  induction n generalizing s with
  | zero => rfl
  | succ n ih =>
    by_cases hs : trimStart s = []
    · have hnil : fields s = [] := fields_eq_nil (List.dropWhile_eq_nil_iff.1 hs)
      rw [renameFields, if_pos hs, hnil]
      rfl
    · obtain ⟨-, -, -, hfirst⟩ := exists_word hs
      have hblank : ∀ c ∈ s.takeWhile isBlank, isBlank c := fun c hc => List.mem_takeWhile_imp hc
      rw [fields_of_trimStart_ne_nil hs] at hρ ⊢
      have hname := hρ _ (List.mem_cons_self ..)
      have ih := ih fun name h => hρ name (List.mem_cons_of_mem _ h)
      rw [renameFields, if_neg hs, List.append_assoc, fields_blank_append hblank,
        fields_word_append hname.ne_nil hname.not_blank (blankFirst_renameFields hfirst),
        ih]
      rfl

theorem not_mem_renameFields {c : Char} (hs : c ∉ s)
    (hρ : ∀ name ∈ (fields s).take n, c ∉ ρ name) : c ∉ renameFields ρ n s := by
  induction n generalizing s with
  | zero => exact hs
  | succ n ih =>
    by_cases hblank : trimStart s = []
    · rwa [renameFields, if_pos hblank]
    · rw [fields_of_trimStart_ne_nil hblank] at hρ
      have hrest : c ∉ (trimStart s).dropWhile fun c => !isBlank c := fun h =>
        hs ((List.dropWhile_sublist _).subset ((List.dropWhile_sublist _).subset h))
      have ih := ih hrest fun name h => hρ name (List.mem_cons_of_mem _ h)
      rw [renameFields, if_neg hblank, List.mem_append, List.mem_append, not_or, not_or]
      refine ⟨⟨fun h => hs ((List.takeWhile_sublist _).subset h), ?_⟩, ih⟩
      exact hρ _ (List.mem_cons_self ..)

/-- The lines with other names for their states hold something where the old ones did, and the
same behind the names. -/
theorem contentLines_renameLines
    (hρ : ∀ line ∈ lines s, ∀ name ∈ (fields line).take 2, IsPlain (ρ name)) :
    List.Forall₂ (fun line line' =>
      fields line' = ((fields line).take 2).map ρ ++ (fields line).drop 2)
        (contentLines s) (contentLines (renameLines ρ s)) := by
  have hlines : lines (renameLines ρ s) = (lines s).map (renameFields ρ 2) := by
    apply lines_intercalate
    · rw [ne_eq, List.map_eq_nil_iff, lines, split_eq_splitOnP]
      exact List.splitOnP_ne_nil _ s
    · intro line' hline'
      obtain ⟨line, hline, rfl⟩ := List.mem_map.1 hline'
      apply not_mem_renameFields
      · exact fun h => (mem_of_mem_split hline h).2 rfl
      · exact fun name hname h => (hρ line hline name hname).not_blank '\n' h (by decide)
  rw [contentLines, contentLines, hlines]
  generalize lines s = ls at hρ
  induction ls with
  | nil => exact .nil
  | cons line ls ih =>
    have ih := ih fun other h => hρ other (List.mem_cons_of_mem _ h)
    have hfields := fields_renameFields (hρ line (List.mem_cons_self ..))
    have hnil : trim (renameFields ρ 2 line) = [] ↔ trim line = [] := by
      rw [← fields_eq_nil_iff, ← fields_eq_nil_iff, hfields, List.append_eq_nil_iff,
        List.map_eq_nil_iff, ← List.append_eq_nil_iff, List.take_append_drop]
    rw [List.map_cons, List.map_cons, List.map_cons, List.filter_cons, List.filter_cons]
    by_cases hline : trim line = []
    · rw [if_neg (by simpa using hline), if_neg (by simpa using hnil.2 hline)]
      exact ih
    · rw [if_pos (by simpa using hline), if_pos (by simpa using mt hnil.1 hline)]
      refine .cons ?_ ih
      rw [fields_trim, fields_trim, hfields]

/-- The different names are the states, in the order in which they come first, and the moves are
those that the lines write. With other names in the same places, that are as different from one
another, the automaton is the same. -/
theorem readPushdown_only_names (h : readPushdown start accept moves = .ok p) :
    IsNumbered (trim start) (items accept) (contentLines moves)
        (stateNames start accept moves) p ∧
      ∀ ρ : List Char → List Char,
        (∀ name ∈ stateNames start accept moves, IsPlain (ρ name)) →
        (∀ name ∈ stateNames start accept moves, ∀ other ∈ stateNames start accept moves,
          ρ name = ρ other → name = other) →
        readPushdown (renameItem ρ start) (renameItems ρ accept) (renameLines ρ moves) = .ok p := by
  refine ⟨isNumbered_of_readPushdown h, fun ρ hplain hρ => ?_⟩
  simp only [stateNames, List.mem_eraseDups, List.mem_cons, List.mem_append, List.mem_flatMap]
    at hplain
  have hne : trim start ≠ [] := (readPushdown_eq_ok_iff.1 h).1
  have hstart := trim_renameItem hne (hplain _ (.inl rfl))
  apply readPushdown_of_renamed h hρ hstart
  · rw [hstart]
    exact (hplain _ (.inl rfl)).ne_nil
  · exact items_renameItems fun name hname => hplain name (.inr (.inl hname))
  · apply contentLines_renameLines
    intro line hline name hname
    by_cases hblank : trim line = []
    · rw [fields_eq_nil_iff.2 hblank] at hname
      cases hname
    · refine hplain name (.inr (.inr ⟨trim line, ?_, ?_⟩))
      · exact List.mem_filter.2 ⟨List.mem_map_of_mem hline, by simpa using hblank⟩
      · rwa [fields_trim]

/-- Two states change their names. What is read, popped or pushed keeps its own, even where it is
that of a state. -/
theorem readPushdown_swapped : ∃ p,
    readPushdown " q ".toList "r,, q".toList "q r q b,~ -> r\n\n r q ε,r->~ ".toList = .ok p ∧
    IsNumbered ['q'] [['r'], ['q']] ["q r q b,~ -> r".toList, "r q ε,r->~".toList] [['q'], ['r']] p ∧
    readPushdown " r ".toList "q,, r".toList "r q q b,~ -> r\n\n q r ε,r->~ ".toList = .ok p := by
  have hok : (readPushdown " q ".toList "r,, q".toList
      "q r q b,~ -> r\n\n r q ε,r->~ ".toList).map (·.states.toList) = .ok [0, 1] := by
    decide +kernel
  obtain ⟨p, hread, -⟩ := exists_of_map_eq_ok hok
  have hnames : stateNames " q ".toList "r,, q".toList
      "q r q b,~ -> r\n\n r q ε,r->~ ".toList = [['q'], ['r']] := by decide +kernel
  obtain ⟨hnumbered, hrename⟩ := readPushdown_only_names hread
  have hswap := hrename fun name => if name = ['q'] then ['r'] else ['q']
  rw [hnames] at hnumbered hswap
  refine ⟨p, hread, hnumbered, hswap ?_ ?_⟩
  · intro name hname
    split
    · exact isPlain_singleton (by decide) (by decide)
    · exact isPlain_singleton (by decide) (by decide)
  · decide

end LineFormat

end FormalLanguages
