import FormalLanguages.Proofs.Regex.Reader
import FormalLanguages.Proofs.Text

/-!
# The written form is read back

An expression is readable if its tree has the shape that the reader gives to what it reads. An item
is read in any place where it may stand, items side by side are read in any such place too, and
alternatives are read at the beginning of a group only. Conversely, whatever is read is readable,
since each token keeps what the reader holds in that shape.
-/

namespace FormalLanguages.Regex

/-- How loosely the parts of the written form hang together. -/
def rank : Regex → Nat
  | literal _ => 0
  | group _ => 0
  | plus _ => 1
  | star _ => 2
  | option _ => 3
  | concat _ _ => 4
  | union _ _ => 5

/-- Literals are read as symbols, suffixes stand in their order, and concatenations and unions
associate to the right. -/
inductive Readable : Regex → Prop
  | epsilon : Readable (literal none)
  | letter {c} : c.isAlphanum → Readable (literal (some c))
  | group {r} : Readable r → Readable (group r)
  | plus {r} : Readable r → r.rank ≤ 0 → Readable (plus r)
  | star {r} : Readable r → r.rank ≤ 1 → Readable (star r)
  | option {r} : Readable r → r.rank ≤ 2 → Readable (option r)
  | concat {r s} : Readable r → Readable s → r.rank ≤ 3 → s.rank ≤ 4 → Readable (concat r s)
  | union {r s} : Readable r → Readable s → r.rank ≤ 4 → Readable (union r s)

variable {r s : Regex} {text u v : List Char} {c : Char} {t : Token}

/-! ### Tokens -/

theorem ofChar?_of_isAlphanum (h : c.isAlphanum) : Token.ofChar? c = some (.symbol (some c)) := by
  unfold Token.ofChar?
  split
  case h_7 => rw [if_pos h]
  all_goals exact absurd h (by decide)

theorem isAlphanum_of_ofChar? {d : Char} (h : Token.ofChar? d = some (.symbol (some c))) :
    c.isAlphanum := by
  unfold Token.ofChar? at h
  grind

theorem tokens_cons (h : Token.ofChar? c = some t) : tokens (c :: text) = t :: tokens text :=
  List.filterMap_cons_some h

theorem endOfInput_not_mem_tokens : Token.endOfInput ∉ tokens text := by
  intro h
  obtain ⟨c, -, hc⟩ := List.mem_filterMap.1 h
  unfold Token.ofChar? at hc
  grind

/-! ### Readers -/

namespace Reader

variable {R R' : Reader} {a : Label}

def read (R : Reader) (text : List Char) : Except Error Reader := (tokens text).foldlM step R

theorem read_append (h : R.read u = .ok R') : R.read (u ++ v) = R'.read v := by
  unfold read at h ⊢
  rw [tokens, List.filterMap_append, List.foldlM_append]
  show ((tokens u).foldlM step R).bind _ = _
  rw [h]
  rfl

theorem read_cons (ht : Token.ofChar? c = some t) (h : R.step t = .ok R') :
    R.read (c :: text) = R'.read text := by
  unfold read
  rw [tokens_cons ht, List.foldlM_cons, h]
  rfl

end Reader

/-! ### Reading written forms -/

def suffix : Regex → Suffix
  | plus _ => .plus
  | star _ => .star
  | option _ => .option
  | _ => .bare

def ReadAsItem (r : Regex) : Prop :=
  ∀ R : Reader, R.read r.print = .ok (.holding R.outer R.before r r.suffix)

def ReadAsItems (r : Regex) : Prop :=
  ∀ R : Reader, ∃ b last suffix, R.read r.print = .ok (.holding R.outer b last suffix) ∧
    b.alternatives = R.before.alternatives ∧ b.join last = R.before.join r

def ReadAsAlternatives (r : Regex) : Prop :=
  ∀ outer alternatives, ∃ b last suffix,
    (Reader.expecting outer alternatives).read r.print = .ok (.holding outer b last suffix) ∧
      b.close last = alternatives.foldl (fun r alternative => union alternative r) r

theorem ReadAsItem.readAsItems (h : ReadAsItem r) : ReadAsItems r :=
  fun R => ⟨R.before, r, r.suffix, h R, rfl, rfl⟩

theorem ReadAsItems.readAsAlternatives (h : ReadAsItems r) : ReadAsAlternatives r := by
  intro outer alternatives
  obtain ⟨b, last, suffix, hread, halternatives, hjoin⟩ := h (.expecting outer alternatives)
  refine ⟨b, last, suffix, hread, ?_⟩
  show b.alternatives.foldl _ (b.join last) = _
  rw [halternatives, hjoin]
  rfl

theorem readAsItem_literal {a : Label} (h : Token.ofChar? a.toChar = some (.symbol a)) :
    ReadAsItem (literal a) := fun _ => Reader.read_cons h Reader.step_symbol

theorem ReadAsAlternatives.group (h : ReadAsAlternatives r) : ReadAsItem (group r) := by
  intro R
  obtain ⟨b, last, suffix, hread, hclose⟩ := h (R.before :: R.outer) []
  show R.read ('(' :: (r.print ++ [')'])) = _
  rw [Reader.read_cons rfl Reader.step_leftParen, Reader.read_append hread]
  rw [show r = b.close last from hclose.symm]
  rfl

theorem ReadAsItem.plus (h : ReadAsItem r) (hr : r.rank ≤ 0) : ReadAsItem (plus r) := by
  intro R
  have hsuffix : r.suffix = .bare := by
    cases r <;> first | rfl | (simp [rank] at hr)
  show R.read (r.print ++ ['+']) = _
  rw [Reader.read_append (h R), hsuffix]
  rfl

theorem ReadAsItem.star (h : ReadAsItem r) (hr : r.rank ≤ 1) : ReadAsItem (star r) := by
  intro R
  have hsuffix : r.suffix = .bare ∨ r.suffix = .plus := by
    cases r <;> simp [rank, suffix] at hr ⊢
  show R.read (r.print ++ ['*']) = _
  rw [Reader.read_append (h R)]
  rcases hsuffix with hsuffix | hsuffix <;> rw [hsuffix] <;> rfl

theorem ReadAsItem.option (h : ReadAsItem r) (hr : r.rank ≤ 2) : ReadAsItem (option r) := by
  intro R
  have hsuffix : r.suffix = .bare ∨ r.suffix = .plus ∨ r.suffix = .star := by
    cases r <;> simp [rank, suffix] at hr ⊢
  show R.read (r.print ++ ['?']) = _
  rw [Reader.read_append (h R)]
  rcases hsuffix with hsuffix | hsuffix | hsuffix <;> rw [hsuffix] <;> rfl

theorem ReadAsItem.concat (h : ReadAsItem r) (hs : ReadAsItems s) : ReadAsItems (concat r s) := by
  intro R
  obtain ⟨b, last, suffix, hread, halternatives, hjoin⟩ :=
    hs (.holding R.outer R.before r r.suffix)
  exact ⟨b, last, suffix, (Reader.read_append (h R)).trans hread, halternatives, hjoin⟩

theorem ReadAsItems.union (h : ReadAsItems r) (hs : ReadAsAlternatives s) :
    ReadAsAlternatives (union r s) := by
  intro outer alternatives
  obtain ⟨b, last, suffix, hread, halternatives, hjoin⟩ := h (.expecting outer alternatives)
  obtain ⟨b', last', suffix', hread', hclose'⟩ := hs outer (b.join last :: b.alternatives)
  refine ⟨b', last', suffix', ?_, ?_⟩
  · show Reader.read _ (r.print ++ '|' :: s.print) = _
    rw [Reader.read_append hread, Reader.read_cons rfl rfl]
    exact hread'
  · rw [hclose', halternatives, hjoin]
    rfl

/-- What is read of a readable expression, by its rank. -/
theorem Readable.read (h : r.Readable) : (r.rank ≤ 3 → ReadAsItem r) ∧
    (r.rank ≤ 4 → ReadAsItems r) ∧ ReadAsAlternatives r := by
  have item : ∀ {r}, ReadAsItem r → (r.rank ≤ 3 → ReadAsItem r) ∧
      (r.rank ≤ 4 → ReadAsItems r) ∧ ReadAsAlternatives r := fun h =>
    ⟨fun _ => h, fun _ => h.readAsItems, h.readAsItems.readAsAlternatives⟩
  induction h with
  | epsilon => exact item (readAsItem_literal (by decide))
  | letter h => exact item (readAsItem_literal (ofChar?_of_isAlphanum h))
  | group _ ih => exact item ih.2.2.group
  | plus _ hr ih => exact item ((ih.1 (by omega)).plus hr)
  | star _ hr ih => exact item ((ih.1 (by omega)).star hr)
  | option _ hr ih => exact item ((ih.1 (by omega)).option hr)
  | concat _ _ hr hs ihr ihs =>
    have hitems := (ihr.1 hr).concat (ihs.2.1 hs)
    exact ⟨fun h => absurd h (by simp [rank]), fun _ => hitems, hitems.readAsAlternatives⟩
  | union _ _ hr ihr ihs =>
    exact ⟨fun h => absurd h (by simp [rank]), fun h => absurd h (by simp [rank]),
      (ihr.2.1 hr).union ihs.2.2⟩

theorem parse_eq (hne : tokens text ≠ []) :
    parse text = some <$> (Reader.start.read text).bind Reader.finish := by
  have htake : (lex text).takeWhile (· ≠ .endOfInput) = tokens text := by
    rw [lex, List.takeWhile_append_of_pos]
    · simp
    · intro t ht
      simpa using fun heq => endOfInput_not_mem_tokens (heq ▸ ht)
  rw [parse, if_neg hne, ofTokens_eq_run, Reader.run_eq_foldlM, htake]
  rfl

theorem parse_eq_of_read {R : Reader} (hne : tokens text ≠ [])
    (h : Reader.start.read text = .ok R) : parse text = some <$> R.finish := by
  rw [parse_eq hne, h]
  rfl

theorem parse_print (h : r.Readable) : parse r.print = .ok (some r) := by
  obtain ⟨b, last, suffix, hread, hclose⟩ := h.read.2.2 [] []
  have hne : tokens r.print ≠ [] := by
    intro hnil
    rw [Reader.read, hnil] at hread
    cases hread
  rw [parse_eq_of_read hne hread]
  exact congrArg (fun r => Except.ok (some r)) hclose

/-! ### What is read is readable -/

structure Before.Sound (b : Before) : Prop where
  alternatives : ∀ r ∈ b.alternatives, r.Readable ∧ r.rank ≤ 4
  items : ∀ r ∈ b.items, r.Readable ∧ r.rank ≤ 3

theorem Before.Sound.join {b : Before} (hb : b.Sound) (hr : r.Readable) (hrank : r.rank ≤ 4) :
    (b.join r).Readable ∧ (b.join r).rank ≤ 4 := by
  refine List.foldlRecOn (motive := fun r : Regex => r.Readable ∧ r.rank ≤ 4) b.items _
    ⟨hr, hrank⟩ ?_
  intro r hr item hitem
  obtain ⟨hitem, hrank⟩ := hb.items item hitem
  exact ⟨.concat hitem hr.1 hrank hr.2, by simp [rank]⟩

theorem Before.Sound.close {b : Before} (hb : b.Sound) (hr : r.Readable) (hrank : r.rank ≤ 4) :
    (b.close r).Readable := by
  refine List.foldlRecOn (motive := Readable) b.alternatives _ (hb.join hr hrank).1 ?_
  intro r hr alternative hmem
  exact .union (hb.alternatives alternative hmem).1 hr (hb.alternatives alternative hmem).2

/-- All that a reader holds is readable, and the last item hangs together as its suffix says. -/
inductive Reader.Sound : Reader → Prop
  | expecting {outer alternatives} : (∀ b ∈ outer, b.Sound) → Before.Sound ⟨alternatives, []⟩ →
      Sound (.expecting outer alternatives)
  | holding {outer before last suffix} : (∀ b ∈ outer, b.Sound) → before.Sound → last.Readable →
      last.rank ≤ suffix.level → Sound (.holding outer before last suffix)

theorem Suffix.level_le (suffix : Suffix) : suffix.level ≤ 3 := by
  cases suffix <;> simp [level]

namespace Reader

variable {R R' : Reader}

theorem Sound.outer (h : R.Sound) : ∀ b ∈ R.outer, b.Sound := by
  cases h <;> assumption

theorem Sound.before (h : R.Sound) : R.before.Sound := by
  cases h with
  | expecting _ hb => exact hb
  | @holding _ _ _ suffix _ hb hlast hrank =>
    have hitem := Nat.le_trans hrank suffix.level_le
    exact ⟨hb.alternatives, List.forall_mem_cons.2 ⟨⟨hlast, hitem⟩, hb.items⟩⟩

theorem Sound.pipe (h : R.Sound) (hstep : R.step .pipe = .ok R') : R'.Sound := by
  cases h with
  | expecting => cases hstep
  | @holding outer b last suffix houter hb hlast hrank =>
    obtain rfl := Except.ok.inj hstep
    have hrank := Nat.le_succ_of_le (Nat.le_trans hrank suffix.level_le)
    have hitems : Before.Sound ⟨[], b.items⟩ := ⟨by simp, hb.items⟩
    have halternative := hitems.join hlast hrank
    exact .expecting houter ⟨List.forall_mem_cons.2 ⟨halternative, hb.alternatives⟩, by simp⟩

theorem Sound.rightParen (h : R.Sound) (hstep : R.step .rightParen = .ok R') : R'.Sound := by
  cases h with
  | expecting => cases hstep
  | @holding outer b last suffix houter hb hlast hrank =>
    cases outer with
    | nil => cases hstep
    | cons b' outer =>
      obtain rfl := Except.ok.inj hstep
      obtain ⟨hb', houter⟩ := List.forall_mem_cons.1 houter
      have hrank := Nat.le_succ_of_le (Nat.le_trans hrank suffix.level_le)
      exact .holding houter hb' (.group (hb.close hlast hrank)) (Nat.zero_le _)

section Suffixes

variable {next : Suffix} {f : Regex → Regex}

theorem readable_suffix (ht : suffix? t = some (next, f)) (hr : r.Readable)
    (hrank : r.rank < next.level) : (f r).Readable ∧ (f r).rank ≤ next.level := by
  have hrank := Nat.le_pred_of_lt hrank
  cases t with
  | plus =>
    obtain ⟨rfl, rfl⟩ := Prod.mk.inj (Option.some.inj ht)
    exact ⟨.plus hr hrank, Nat.le_refl _⟩
  | asterisk =>
    obtain ⟨rfl, rfl⟩ := Prod.mk.inj (Option.some.inj ht)
    exact ⟨.star hr hrank, Nat.le_refl _⟩
  | questionMark =>
    obtain ⟨rfl, rfl⟩ := Prod.mk.inj (Option.some.inj ht)
    exact ⟨.option hr hrank, Nat.le_refl _⟩
  | _ => cases ht

theorem Sound.suffix (h : R.Sound) (ht : suffix? t = some (next, f)) (hstep : R.step t = .ok R') :
    R'.Sound := by
  cases h with
  | expecting =>
    cases t with
    | plus | asterisk | questionMark => cases hstep
    | _ => cases ht
  | holding houter hb hlast hrank =>
    obtain ⟨hlevel, rfl⟩ := step_suffix ht hstep
    obtain ⟨hreadable, hrank⟩ := readable_suffix ht hlast (Nat.lt_of_le_of_lt hrank hlevel)
    exact .holding houter hb hreadable hrank

end Suffixes

theorem Sound.step (h : R.Sound) (ht : ∀ c, t = .symbol (some c) → c.isAlphanum)
    (hstep : R.step t = .ok R') : R'.Sound := by
  cases t with
  | symbol a =>
    rw [step_symbol] at hstep
    obtain rfl := Except.ok.inj hstep
    refine .holding h.outer h.before ?_ (Nat.zero_le _)
    cases a with
    | none => exact .epsilon
    | some c => exact .letter (ht c rfl)
  | leftParen =>
    rw [step_leftParen] at hstep
    obtain rfl := Except.ok.inj hstep
    exact .expecting (List.forall_mem_cons.2 ⟨h.before, h.outer⟩) ⟨by simp, by simp⟩
  | pipe => exact h.pipe hstep
  | rightParen => exact h.rightParen hstep
  | plus | asterisk | questionMark => exact h.suffix rfl hstep
  | endOfInput => cases h <;> cases hstep

theorem Sound.read (h : R.Sound) (hread : R.read text = .ok R') : R'.Sound := by
  have hletter : ∀ t ∈ tokens text, ∀ c, t = .symbol (some c) → c.isAlphanum := by
    rintro _ ht c rfl
    obtain ⟨d, -, hd⟩ := List.mem_filterMap.1 ht
    exact isAlphanum_of_ofChar? hd
  unfold Reader.read at hread
  generalize tokens text = ts at hletter hread
  induction ts generalizing R with
  | nil =>
    obtain rfl := Except.ok.inj hread
    exact h
  | cons t ts ih =>
    obtain ⟨ht, hts⟩ := List.forall_mem_cons.1 hletter
    rw [List.foldlM_cons] at hread
    obtain ⟨R₁, hstep, hread⟩ := exists_of_bind_eq_ok hread
    exact ih (h.step ht hstep) hts hread

theorem Sound.finish (h : R.Sound) (hfinish : R.finish = .ok r) : r.Readable := by
  cases h with
  | expecting => cases hfinish
  | @holding outer b last suffix houter hb hlast hrank =>
    cases outer with
    | nil =>
      obtain rfl := Except.ok.inj hfinish
      exact hb.close hlast (Nat.le_succ_of_le (Nat.le_trans hrank suffix.level_le))
    | cons => cases hfinish

end Reader

theorem exists_read_of_parse (h : parse text = .ok (some r)) :
    ∃ R, Reader.start.read text = .ok R ∧ R.finish = .ok r := by
  have hne : tokens text ≠ [] := by
    intro hnil
    rw [parse, if_pos hnil] at h
    cases h
  rw [parse_eq hne] at h
  obtain ⟨s, hfinish, hs⟩ := exists_of_map_eq_ok h
  obtain ⟨R, hread, hfinish⟩ := exists_of_bind_eq_ok hfinish
  obtain rfl := Option.some.inj hs
  exact ⟨R, hread, hfinish⟩

theorem readable_of_parse (h : parse text = .ok (some r)) : r.Readable := by
  obtain ⟨R, hread, hfinish⟩ := exists_read_of_parse h
  have hstart : Reader.start.Sound := .expecting (by simp) ⟨by simp, by simp⟩
  exact (hstart.read hread).finish hfinish

/-- The words of a readable expression are made of letters and digits. -/
theorem Readable.isAlphanum_of_matches {w : List Char} (h : r.Readable) (hw : r.Matches w) :
    ∀ c ∈ w, c.isAlphanum := by
  induction hw with
  | epsilon => simp
  | char c =>
    cases h with
    | letter hc => simpa using hc
  | concat _ _ ihv ihw =>
    cases h with
    | concat hr hs => exact List.forall_mem_append.2 ⟨ihv hr, ihw hs⟩
  | unionLeft _ ih =>
    cases h with
    | union hr => exact ih hr
  | unionRight _ ih =>
    cases h with
    | union _ hs => exact ih hs
  | optionNone => simp
  | optionSome _ ih =>
    cases h with
    | option hr => exact ih hr
  | starNil => simp
  | starCons _ _ ihv ihw =>
    cases h with
    | star hr hrank => exact List.forall_mem_append.2 ⟨ihv hr, ihw (.star hr hrank)⟩
  | plus _ _ ihv ihw =>
    cases h with
    | plus hr hrank =>
      exact List.forall_mem_append.2 ⟨ihv hr, ihw (.star hr (Nat.le_succ_of_le hrank))⟩
  | group _ ih =>
    cases h with
    | group hr => exact ih hr

end FormalLanguages.Regex
