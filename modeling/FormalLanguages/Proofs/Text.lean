import FormalLanguages.Text.Blank
import Mathlib.Data.List.Basic
import Mathlib.Data.List.Forall2
import Mathlib.Data.List.TakeWhile

/-!
# Taking texts apart

Pieces and fields of texts that were put together are found again, and blanks at the end of a text
make no difference to its fields. A reader that goes through a list succeeds if it succeeds with
each of the entries.
-/

namespace FormalLanguages

namespace Text

variable {p q : Char → Bool} {s t l r mark before after : List Char} {c : Char}

/-! ### Pieces -/

theorem split_eq_splitOnP : split p s = s.splitOnP p := by
  induction s with
  | nil => rfl
  | cons c s ih =>
    rw [split, List.splitOnP_cons_eq_if_modifyHead, ih]
    split
    · rfl
    · obtain ⟨piece, pieces, heq⟩ := List.exists_cons_of_ne_nil (List.splitOnP_ne_nil p s)
      rw [heq]
      rfl

theorem split_append_cons (hc : p c) : split p (s ++ c :: t) = split p s ++ split p t := by
  simp only [split_eq_splitOnP, List.splitOnP_append_cons _ _ hc]

theorem split_eq_singleton (h : ∀ c ∈ s, ¬ p c) : split p s = [s] := by
  rw [split_eq_splitOnP, List.splitOnP_eq_singleton]
  simpa using h

/-- A text is made of its pieces and of separators. -/
theorem mem_of_mem_split (hs : t ∈ split p s) (hc : c ∈ t) : c ∈ s ∧ ¬ p c := by
  induction s generalizing t with
  | nil =>
    obtain rfl := List.mem_singleton.1 hs
    cases hc
  | cons d s ih =>
    rw [split] at hs
    split at hs
    · rcases List.mem_cons.1 hs with rfl | hs
      · cases hc
      · exact (ih hs hc).imp_left (List.mem_cons_of_mem d)
    · next hd =>
      split at hs
      · obtain rfl := List.mem_singleton.1 hs
        obtain rfl := List.mem_singleton.1 hc
        exact ⟨List.mem_cons_self .., hd⟩
      · next piece pieces heq =>
        rcases List.mem_cons.1 hs with rfl | hs
        · rcases List.mem_cons.1 hc with rfl | hc
          · exact ⟨List.mem_cons_self .., hd⟩
          · exact (ih (heq ▸ List.mem_cons_self ..) hc).imp_left (List.mem_cons_of_mem d)
        · exact (ih (heq ▸ List.mem_cons_of_mem _ hs) hc).imp_left (List.mem_cons_of_mem d)

/-- Splitting the pieces again amounts to splitting at either kind of separator. -/
theorem flatMap_split : (split p s).flatMap (split q) = split (fun c => p c || q c) s := by
  induction s with
  | nil => rfl
  | cons c s ih =>
    simp only [split_eq_splitOnP, List.splitOnP_cons_eq_if_modifyHead] at ih ⊢
    obtain ⟨piece, pieces, hpiece⟩ := List.exists_cons_of_ne_nil (List.splitOnP_ne_nil p s)
    obtain ⟨first, rest, hfirst⟩ := List.exists_cons_of_ne_nil (List.splitOnP_ne_nil q piece)
    rw [← ih, hpiece]
    by_cases hp : p c
    · simp [hp, split_eq_splitOnP]
    · by_cases hq : q c <;>
        simp [hp, hq, split_eq_splitOnP, List.splitOnP_cons_eq_if_modifyHead, hfirst]

theorem lines_intercalate {ls : List (List Char)} (hne : ls ≠ []) (h : ∀ l ∈ ls, '\n' ∉ l) :
    lines (List.intercalate ['\n'] ls) = ls := by
  rw [lines, split_eq_splitOnP]
  exact List.splitOn_intercalate '\n' h hne

/-- Separators at the end add empty pieces only. -/
theorem filter_split_append (hr : ∀ c ∈ r, p c) :
    (split p (s ++ r)).filter (· ≠ []) = (split p s).filter (· ≠ []) := by
  induction r generalizing s with
  | nil => rw [List.append_nil]
  | cons c r ih =>
    have hnil := ih (s := []) fun d hd => hr d (List.mem_cons_of_mem c hd)
    rw [List.nil_append] at hnil
    rw [split_append_cons (hr c (List.mem_cons_self ..)), List.filter_append, hnil]
    exact List.append_nil _

/-- A line feed ends a line. -/
theorem lines_append_cons (h : '\n' ∉ s) : lines (s ++ '\n' :: t) = s :: lines t := by
  have hsplit : split (· == '\n') s = [s] := by
    apply split_eq_singleton
    intro c hc
    simpa using fun (e : c = '\n') => h (e ▸ hc)
  rw [lines, lines, split_append_cons (by simp), hsplit, List.singleton_append]

/-- What is put between texts comes from the separator. -/
theorem mem_intercalate {ls : List (List Char)} (h : c ∈ List.intercalate s ls) :
    c ∈ s ∨ ∃ l ∈ ls, c ∈ l := by
  induction ls with
  | nil => cases h
  | cons l ls ih =>
    cases ls with
    | nil => exact .inr ⟨l, List.mem_cons_self .., by simpa using h⟩
    | cons l' ls =>
      rw [List.intercalate_cons_cons, List.append_assoc, List.mem_append, List.mem_append] at h
      rcases h with h | h | h
      · exact .inr ⟨l, List.mem_cons_self .., h⟩
      · exact .inl h
      · exact (ih h).imp_right fun ⟨m, hm, hc⟩ => ⟨m, List.mem_cons_of_mem l hm, hc⟩

theorem not_isBlank_of_isDigit {c : Char} (h : c.isDigit) : ¬ isBlank c := by
  simp only [Char.isDigit, Bool.and_eq_true, decide_eq_true_eq, ge_iff_le,
    UInt32.le_iff_toNat_le] at h
  have hlow : 48 ≤ c.toNat := h.1
  have hhigh : c.toNat ≤ 57 := h.2
  simp only [isBlank, Bool.or_eq_true, Bool.and_eq_true, decide_eq_true_eq, beq_iff_eq]
  omega

/-! ### Fields -/

@[simp] theorem fields_nil : fields [] = [] := rfl

/-- A blank ends a field. -/
theorem fields_append_cons (hc : isBlank c) : fields (s ++ c :: t) = fields s ++ fields t := by
  rw [fields, split_append_cons hc, List.filter_append]
  rfl

@[simp] theorem fields_blank_cons (hc : isBlank c) : fields (c :: t) = fields t :=
  fields_append_cons (s := []) hc

/-- A word is its own field. -/
theorem fields_eq_singleton (hne : s ≠ []) (h : ∀ c ∈ s, ¬ isBlank c) : fields s = [s] := by
  rw [fields, split_eq_singleton h]
  simp [hne]

theorem mem_fields (h : t ∈ fields s) : t ≠ [] ∧ ∀ c ∈ t, c ∈ s ∧ ¬ isBlank c := by
  rw [fields, List.mem_filter, decide_eq_true_eq] at h
  exact ⟨h.2, fun c hc => mem_of_mem_split h.1 hc⟩

theorem fields_intercalate {ws : List (List Char)}
    (h : ∀ w ∈ ws, w ≠ [] ∧ ∀ c ∈ w, ¬ isBlank c) : fields (List.intercalate [' '] ws) = ws := by
  induction ws with
  | nil => rfl
  | cons w ws ih =>
    obtain ⟨hne, hblank⟩ := h w (List.mem_cons_self ..)
    have ih := ih fun w hw => h w (List.mem_cons_of_mem _ hw)
    cases ws with
    | nil => simp [fields_eq_singleton hne hblank]
    | cons w' ws =>
      rw [List.intercalate_cons_cons, List.append_assoc, List.singleton_append,
        fields_append_cons (by decide), fields_eq_singleton hne hblank, ih]
      rfl

theorem fields_append_blank (hr : ∀ c ∈ r, isBlank c) : fields (s ++ r) = fields s :=
  filter_split_append hr

theorem fields_eq_nil (h : ∀ c ∈ s, isBlank c) : fields s = [] :=
  fields_append_blank (s := []) h

theorem fields_blank_append (hl : ∀ c ∈ l, isBlank c) : fields (l ++ s) = fields s := by
  induction l with
  | nil => rfl
  | cons c l ih =>
    rw [List.cons_append, fields_blank_cons (hl c (List.mem_cons_self ..))]
    exact ih fun d hd => hl d (List.mem_cons_of_mem c hd)

/-- Blanks at the end make no difference to the fields of the pieces. -/
theorem map_fields_split_append (hp : ∀ c ∈ r, ¬ p c) (hr : ∀ c ∈ r, isBlank c) :
    (split p (s ++ r)).map fields = (split p s).map fields := by
  induction h : s.length using Nat.strongRecOn generalizing s with
  | ind n ih =>
    by_cases hs : ∀ c ∈ s, ¬ p c
    · have hsr : ∀ c ∈ s ++ r, ¬ p c := fun c hc => (List.mem_append.1 hc).elim (hs c) (hp c)
      rw [split_eq_singleton hs, split_eq_singleton hsr, List.map_singleton, List.map_singleton,
        fields_append_blank hr]
    · -- the pieces after a separator are those of a shorter text
      simp only [not_forall, not_not] at hs
      obtain ⟨c, hc, hpc⟩ := hs
      obtain ⟨t, s, rfl⟩ := List.append_of_mem hc
      rw [List.append_assoc, List.cons_append, split_append_cons hpc, split_append_cons hpc,
        List.map_append, List.map_append, ih s.length _ rfl]
      rw [← h, List.length_append, List.length_cons]
      omega

/-! ### Blanks at both ends -/

theorem isBlank_of_mem_singleton {d : Char} (hc : isBlank c) (hd : d ∈ [c]) : isBlank d :=
  List.mem_singleton.1 hd ▸ hc

/-- What is trimmed off is blank. -/
theorem exists_of_trim (s : List Char) :
    ∃ l r, s = l ++ trim s ++ r ∧ (∀ c ∈ l, isBlank c) ∧ ∀ c ∈ r, isBlank c := by
  refine ⟨s.takeWhile isBlank, ((trimStart s).reverse.takeWhile isBlank).reverse, ?_, ?_, ?_⟩
  · have hend : trimStart s = trim s ++ ((trimStart s).reverse.takeWhile isBlank).reverse := by
      rw [trim, trimEnd, ← List.reverse_append, List.takeWhile_append_dropWhile,
        List.reverse_reverse]
    rw [List.append_assoc, ← hend]
    exact List.takeWhile_append_dropWhile.symm
  · exact fun c hc => List.mem_takeWhile_imp hc
  · exact fun c hc => List.mem_takeWhile_imp (List.mem_reverse.1 hc)

theorem trim_infix (s : List Char) : trim s <:+: s := by
  obtain ⟨l, r, hs, -, -⟩ := exists_of_trim s
  exact ⟨l, r, hs.symm⟩

theorem trim_eq_nil_iff : trim s = [] ↔ ∀ c ∈ s, isBlank c := by
  constructor
  · intro h
    obtain ⟨l, r, hs, hl, hr⟩ := exists_of_trim s
    rw [h, List.append_nil] at hs
    rw [hs]
    exact fun c hc => (List.mem_append.1 hc).elim (hl c) (hr c)
  · intro h
    have hstart : trimStart s = [] := List.dropWhile_eq_nil_iff.2 h
    rw [trim, hstart]
    rfl

theorem trimStart_append (hl : ∀ c ∈ l, isBlank c) : trimStart (l ++ s) = trimStart s :=
  List.dropWhile_append_of_pos hl

theorem trim_append_left (hl : ∀ c ∈ l, isBlank c) : trim (l ++ s) = trim s := by
  rw [trim, trimStart_append hl, trim]

/-- A text without blanks at its ends is what is left when it stands between blanks. -/
theorem trim_append (hl : ∀ c ∈ l, isBlank c) (hr : ∀ c ∈ r, isBlank c)
    (hhead : ∀ c ∈ s.head?, ¬ isBlank c) (hlast : ∀ c ∈ s.getLast?, ¬ isBlank c) :
    trim (l ++ s ++ r) = s := by
  have hend : ∀ t : List Char, (∀ c ∈ t.head?, ¬ isBlank c) → trimStart t = t := by
    intro t ht
    cases t with
    | nil => rfl
    | cons c t => exact List.dropWhile_cons_of_neg (ht c rfl)
  rw [List.append_assoc, trim_append_left hl, trim]
  cases s with
  | nil =>
    have hnil := trimStart_append (s := []) hr
    rw [List.append_nil] at hnil
    rw [List.nil_append, hnil]
    rfl
  | cons c s =>
    have hstart : trimStart (c :: s ++ r) = c :: s ++ r := hend _ fun d hd => hhead d hd
    rw [hstart, trimEnd, List.reverse_append]
    have hrev := trimStart_append (l := r.reverse) (s := (c :: s).reverse)
      fun d hd => hr d (List.mem_reverse.1 hd)
    rw [trimStart] at hrev
    have hlast : ∀ d ∈ (c :: s).reverse.head?, ¬ isBlank d := by
      rw [List.head?_reverse]
      exact hlast
    rw [hrev, hend _ hlast, List.reverse_reverse]

/-- A text without blanks at its ends stays as it is. -/
theorem trim_eq_self (hhead : ∀ c ∈ s.head?, ¬ isBlank c) (hlast : ∀ c ∈ s.getLast?, ¬ isBlank c) :
    trim s = s := by
  have h := trim_append (l := []) (r := []) (by simp) (by simp) hhead hlast
  rwa [List.nil_append, List.append_nil] at h

theorem not_isBlank_of_trim_eq_singleton (h : trim s = [c]) : ¬ isBlank c := by
  intro hc
  obtain ⟨l, r, hs, hl, hr⟩ := exists_of_trim s
  have hnil : trim s = [] := by
    apply trim_eq_nil_iff.2
    rw [hs, h]
    intro d hd
    rcases List.mem_append.1 hd with hd | hd
    · rcases List.mem_append.1 hd with hd | hd
      · exact hl d hd
      · exact isBlank_of_mem_singleton hc hd
    · exact hr d hd
  rw [h] at hnil
  cases hnil

theorem fields_trim (s : List Char) : fields (trim s) = fields s := by
  obtain ⟨l, r, hs, hl, hr⟩ := exists_of_trim s
  rw [hs, fields_append_blank hr, ← hs, fields_blank_append hl]

/-- Lines that are ended one by one are found again. -/
theorem contentLines_flatMap {ls : List (List Char)} (h : ∀ l ∈ ls, '\n' ∉ l) :
    contentLines (ls.flatMap fun l => l ++ ['\n']) = (ls.map trim).filter (· ≠ []) := by
  induction ls with
  | nil => rfl
  | cons l ls ih =>
    have ih := ih fun l hl => h l (List.mem_cons_of_mem _ hl)
    rw [contentLines] at ih ⊢
    rw [List.flatMap_cons, List.append_assoc, List.singleton_append,
      lines_append_cons (h l (List.mem_cons_self ..)), List.map_cons, List.map_cons,
      List.filter_cons, List.filter_cons, ih]

/-! ### Items -/

theorem ne_comma_of_mem_items (hs : t ∈ items s) (hc : c ∈ t) : c ≠ ',' := by
  obtain ⟨u, hu, rfl⟩ := List.mem_map.1 (List.mem_filter.1 hs).1
  have hsubset := List.IsInfix.subset <| trim_infix u
  simpa using (mem_of_mem_split hu (hsubset hc)).2

theorem not_isBlank_of_mem_items (hs : [c] ∈ items s) : ¬ isBlank c := by
  obtain ⟨u, -, hu⟩ := List.mem_map.1 (List.mem_filter.1 hs).1
  exact not_isBlank_of_trim_eq_singleton hu

theorem items_intercalate {ws : List (List Char)}
    (h : ∀ w ∈ ws, w ≠ [] ∧ ∀ c ∈ w, c ≠ ',' ∧ ¬ isBlank c) :
    items (List.intercalate [','] ws) = ws := by
  by_cases hnil : ws = []
  · subst hnil
    decide
  have hsplit : split (· == ',') (List.intercalate [','] ws) = ws := by
    rw [split_eq_splitOnP]
    exact List.splitOn_intercalate ',' (fun w hw hc => ((h w hw).2 _ hc).1 rfl) hnil
  have htrim : ∀ w ∈ ws, trim w = w := by
    intro w hw
    apply trim_eq_self
    · exact fun c hc => ((h w hw).2 c (List.mem_of_mem_head? hc)).2
    · exact fun c hc => ((h w hw).2 c (List.mem_of_mem_getLast? hc)).2
  rw [items, hsplit, List.map_congr_left htrim, List.map_id', List.filter_eq_self]
  intro w hw
  simpa using (h w hw).1

/-! ### Marks -/

/-- After the beginning of a text only the first part of the mark matters. -/
theorem prefix_append_iff (hmark : mark ≠ []) (hbefore : before ≠ []) :
    mark <+: before ++ mark ++ after ↔ mark <+: before ++ mark.dropLast := by
  have hprefix : before ++ mark.dropLast <+: before ++ mark ++ after := by
    refine ⟨mark.getLast hmark :: after, ?_⟩
    rw [List.append_assoc, List.append_cons, List.dropLast_concat_getLast, List.append_assoc]
  have hlength : mark.length ≤ (before ++ mark.dropLast).length := by
    have := List.length_pos_iff.2 hbefore
    simp only [List.length_append, List.length_dropLast]
    omega
  exact ⟨fun h => List.prefix_of_prefix_length_le h hprefix hlength, fun h => h.trans hprefix⟩

theorem not_infix_dropLast (hmark : mark ≠ []) : ¬ mark <:+: mark.dropLast := by
  intro h
  have hle := h.length_le
  have hpos := List.length_pos_iff.2 hmark
  rw [List.length_dropLast] at hle
  omega

/-- A text is cut where the mark occurs for the first time. -/
theorem cut_eq_some_iff (hmark : mark ≠ []) : cut mark s = some (before, after) ↔
    s = before ++ mark ++ after ∧ ¬ mark <:+: before ++ mark.dropLast := by
  induction s generalizing before after with
  | nil => simp [cut, hmark]
  | cons c s ih =>
    by_cases hprefix : mark <+: c :: s
    · obtain ⟨rest, hrest⟩ := hprefix
      have hcut : cut mark (c :: s) = some ([], rest) := by
        rw [cut, if_pos (List.isPrefixOf_iff_prefix.2 ⟨rest, hrest⟩), ← hrest, List.drop_left]
      rw [hcut, Option.some_inj, Prod.mk.injEq, ← hrest]
      constructor
      · rintro ⟨rfl, rfl⟩
        exact ⟨rfl, not_infix_dropLast hmark⟩
      · rintro ⟨heq, hfirst⟩
        cases before with
        | nil => exact ⟨rfl, List.append_cancel_left heq⟩
        | cons d before =>
          have h : mark <+: d :: before ++ mark ++ after := ⟨rest, heq⟩
          exact absurd ((prefix_append_iff hmark (List.cons_ne_nil _ _)).1 h).isInfix hfirst
    · rw [cut, if_neg fun h => hprefix (List.isPrefixOf_iff_prefix.1 h)]
      simp only [Option.map_eq_some_iff, Prod.exists, Prod.mk.injEq, ih]
      constructor
      · rintro ⟨b, a, ⟨rfl, hfirst⟩, rfl, rfl⟩
        refine ⟨rfl, fun h => ?_⟩
        rcases List.infix_cons_iff.1 h with h | h
        · exact hprefix ((prefix_append_iff hmark (List.cons_ne_nil c b)).2 h)
        · exact hfirst h
      · rintro ⟨heq, hfirst⟩
        cases before with
        | nil => exact absurd ⟨after, heq.symm⟩ hprefix
        | cons d before =>
          obtain ⟨rfl, hs⟩ := List.cons_eq_cons.1 heq
          exact ⟨before, after, ⟨hs, fun h => hfirst (h.trans (List.suffix_cons c _).isInfix)⟩,
            rfl, rfl⟩

end Text

/-! ### Reading one after another -/

section MapM

variable {α β ε : Type} {x : Except ε α} {b : β} {as : List α} {bs : List β}

theorem exists_of_map_eq_ok {f : α → β} (h : x.map f = .ok b) : ∃ a, x = .ok a ∧ f a = b := by
  cases x with
  | error e => cases h
  | ok a => exact ⟨a, rfl, Except.ok.inj h⟩

theorem exists_of_bind_eq_ok {f : α → Except ε β} (h : x.bind f = .ok b) :
    ∃ a, x = .ok a ∧ f a = .ok b := by
  cases x with
  | error e => cases h
  | ok a => exact ⟨a, rfl, h⟩

theorem mapM_eq_ok_iff {f : α → Except ε β} :
    as.mapM f = .ok bs ↔ List.Forall₂ (fun a b => f a = .ok b) as bs := by
  induction as generalizing bs with
  | nil => cases bs <;> simp [pure, Except.pure]
  | cons a as ih =>
    rw [List.mapM_cons, List.forall₂_cons_left_iff]
    simp only [← ih]
    cases hb : f a with
    | error e => simp [bind, Except.bind]
    | ok b =>
      cases hbs : as.mapM f with
      | error e => simp [bind, Except.bind]
      | ok bs => simp [bind, Except.bind, pure, Except.pure, eq_comm]

theorem mapM_eq_some_iff {f : α → Option β} :
    as.mapM f = some bs ↔ List.Forall₂ (fun a b => f a = some b) as bs := by
  induction as generalizing bs with
  | nil => cases bs <;> simp
  | cons a as ih =>
    rw [List.mapM_cons, List.forall₂_cons_left_iff]
    simp only [← ih]
    cases hb : f a with
    | none => simp
    | some b =>
      cases hbs : as.mapM f with
      | none => simp
      | some bs => simp [eq_comm]

/-- Each value was read from one of the entries. -/
theorem exists_left_of_forall₂ {R : α → β → Prop} (h : List.Forall₂ R as bs) {b : β}
    (hb : b ∈ bs) : ∃ a ∈ as, R a b := by
  induction h with
  | nil => cases hb
  | cons hab _ ih =>
    rcases List.mem_cons.1 hb with rfl | hb
    · exact ⟨_, List.mem_cons_self .., hab⟩
    · obtain ⟨a, ha, hab⟩ := ih hb
      exact ⟨a, List.mem_cons_of_mem _ ha, hab⟩

theorem exists_right_of_forall₂ {R : α → β → Prop} (h : List.Forall₂ R as bs) {a : α}
    (ha : a ∈ as) : ∃ b ∈ bs, R a b :=
  exists_left_of_forall₂ (R := flip R) h.flip ha

end MapM

end FormalLanguages
