import FormalLanguages.Regex.Parser

/-!
# Reading in one pass

Expressions can be read in one pass over the tokens. The reader keeps what it has read of the
innermost open group, and below it, for every group around that one, what stood before it. Each
function of the descent agrees with the reader: it fails as the reader does, or it gives what the
reader holds when it comes to the tokens that are left.
-/

namespace FormalLanguages.Regex

/-- What may follow the item just read without starting a new one: a suffix is allowed if it
comes later in the order `+`, `*`, `?` than those already there. -/
inductive Suffix where
  | bare
  | plus
  | star
  | option
deriving DecidableEq, Repr

/-- How loosely an item with this suffix hangs together at most. -/
def Suffix.level : Suffix → Nat
  | .bare => 0
  | .plus => 1
  | .star => 2
  | .option => 3

/-- The part of a group that stands before the item being read: the finished alternatives and
the finished items of the present one, the latest first. -/
structure Before where
  alternatives : List Regex := []
  items : List Regex := []
deriving DecidableEq, Repr

namespace Before

def join (b : Before) (last : Regex) : Regex :=
  b.items.foldl (fun r item => concat item r) last

def close (b : Before) (last : Regex) : Regex :=
  b.alternatives.foldl (fun r alternative => union alternative r) (b.join last)

end Before

/-- `outer` holds what stands before each open group, the innermost first. -/
inductive Reader where
  /-- An item must come next. -/
  | expecting (outer : List Before) (alternatives : List Regex)
  /-- An item has been read and may still get suffixes. -/
  | holding (outer : List Before) (before : Before) (last : Regex) (suffix : Suffix)
deriving DecidableEq, Repr

namespace Reader

def start : Reader := expecting [] []

def step : Reader → Token → Except Error Reader
  | expecting outer alternatives, t =>
    match t with
    | .symbol a => .ok (holding outer ⟨alternatives, []⟩ (literal a) .bare)
    | .leftParen => .ok (expecting (⟨alternatives, []⟩ :: outer) [])
    | t => unexpected t
  | holding outer before last suffix, t =>
    match t with
    | .symbol a =>
      .ok (holding outer { before with items := last :: before.items } (literal a) .bare)
    | .leftParen => .ok (expecting ({ before with items := last :: before.items } :: outer) [])
    | .pipe =>
      .ok (expecting outer (Before.close ⟨[], before.items⟩ last :: before.alternatives))
    | .rightParen =>
      match outer with
      | [] => .error .unmatchedParen
      | b :: outer => .ok (holding outer b (group (before.close last)) .bare)
    | .plus =>
      match suffix with
      | .bare => .ok (holding outer before (.plus last) .plus)
      | _ => unexpected t
    | .asterisk =>
      match suffix with
      | .bare | .plus => .ok (holding outer before (.star last) .star)
      | _ => unexpected t
    | .questionMark =>
      match suffix with
      | .bare | .plus | .star => .ok (holding outer before (.option last) .option)
      | _ => unexpected t
    | .endOfInput => unexpected t

def finish : Reader → Except Error Regex
  | expecting _ _ => unexpected .endOfInput
  | holding [] before last _ => .ok (before.close last)
  | holding (_ :: _) _ _ _ => .error .unmatchedParen

def run (R : Reader) : List Token → Except Error Regex
  | [] => R.finish
  | t :: ts => if t = .endOfInput then R.finish else (R.step t).bind fun R => R.run ts

/-- What stands around the innermost open group. -/
def outer : Reader → List Before
  | expecting outer _ => outer
  | holding outer _ _ _ => outer

/-- What stands before the next item, if one comes next. -/
def before : Reader → Before
  | expecting _ alternatives => ⟨alternatives, []⟩
  | holding _ before last _ => { before with items := last :: before.items }

/-- The suffix that a token stands for, and what it makes of an item. -/
def suffix? : Token → Option (Suffix × (Regex → Regex))
  | .plus => some (.plus, Regex.plus)
  | .asterisk => some (.star, Regex.star)
  | .questionMark => some (.option, Regex.option)
  | _ => none

variable {R R' : Reader} {a : Label} {t mark : Token} {ts ts' : List Token} {r last : Regex}
  {outer : List Before} {b : Before} {suffix next : Suffix} {f : Regex → Regex} {k : Nat}
  {alternatives : List Regex}

/-! ### Steps of the reader -/

theorem step_symbol : R.step (.symbol a) = .ok (holding R.outer R.before (literal a) .bare) := by
  cases R <;> rfl

theorem step_leftParen : R.step .leftParen = .ok (expecting (R.before :: R.outer) []) := by
  cases R <;> rfl

/-- A suffix is read where it comes later in the order than those already there, and only there. -/
theorem step_suffix_eq (ht : suffix? t = some (next, f)) :
    (holding outer b last suffix).step t =
      if suffix.level < next.level then .ok (holding outer b (f last) next) else unexpected t := by
  cases t with
  | plus | asterisk | questionMark =>
    obtain ⟨rfl, rfl⟩ := Prod.mk.inj (Option.some.inj ht)
    cases suffix <;> rfl
  | _ => cases ht

theorem step_suffix (ht : suffix? t = some (next, f))
    (hstep : (holding outer b last suffix).step t = .ok R') :
    suffix.level < next.level ∧ holding outer b (f last) next = R' := by
  rw [step_suffix_eq ht] at hstep
  split at hstep
  · next hlevel => exact ⟨hlevel, Except.ok.inj hstep⟩
  · cases hstep

/-- A suffix is known by its level. -/
theorem eq_of_level_eq {t' : Token} {next' : Suffix} {f' : Regex → Regex}
    (ht : suffix? t = some (next, f)) (ht' : suffix? t' = some (next', f'))
    (h : next.level = next'.level) : t = t' := by
  cases t with
  | plus | asterisk | questionMark =>
    obtain ⟨rfl, -⟩ := Prod.mk.inj (Option.some.inj ht)
    cases t' with
    | plus | asterisk | questionMark =>
      obtain ⟨rfl, -⟩ := Prod.mk.inj (Option.some.inj ht')
      first | rfl | exact absurd h (by decide)
    | _ => cases ht'
  | _ => cases ht

theorem run_of_end (h : peek ts = .endOfInput) : R.run ts = R.finish := by
  cases ts with
  | nil => rfl
  | cons t ts => exact if_pos h

theorem run_of_peek (h : peek ts = t) (ht : t ≠ .endOfInput) :
    R.run ts = (R.step t).bind fun R => R.run ts.tail := by
  cases ts with
  | nil => exact absurd h.symm ht
  | cons t' ts =>
    obtain rfl : t' = t := h
    exact if_neg ht

theorem run_of_step (h : peek ts = t) (ht : t ≠ .endOfInput) (hstep : R.step t = .ok R') :
    R.run ts = R'.run ts.tail := by
  rw [run_of_peek h ht, hstep]
  rfl

theorem run_of_error {e : Error} (h : peek ts = t) (ht : t ≠ .endOfInput)
    (hstep : R.step t = .error e) : R.run ts = .error e := by
  rw [run_of_peek h ht, hstep]
  rfl

theorem run_eq_foldlM (R : Reader) (ts : List Token) :
    R.run ts = ((ts.takeWhile (· ≠ .endOfInput)).foldlM step R).bind finish := by
  induction ts generalizing R with
  | nil => rfl
  | cons t ts ih =>
    by_cases ht : t = .endOfInput
    · rw [run, if_pos ht, List.takeWhile_cons_of_neg (by simpa using ht)]
      rfl
    · rw [run, if_neg ht, List.takeWhile_cons_of_pos (by simpa using ht), List.foldlM_cons]
      show (R.step t).bind _ = ((R.step t).bind _).bind _
      cases R.step t with
      | error e => rfl
      | ok R' => exact ih R'

/-! ### Agreement -/

/-- The reader fails with the same error, or what is given has a property. -/
inductive Agrees {α : Type} (R : Reader) (ts : List Token) (P : α → Prop) : Except Error α → Prop
  | failed {e : Error} : R.run ts = .error e → Agrees R ts P (.error e)
  | given {a : α} : P a → Agrees R ts P (.ok a)

namespace Agrees

variable {α β : Type} {P : α → Prop} {Q : β → Prop} {x : Except Error α}

theorem of_run_eq (h : Agrees R' ts' P x) (hrun : R.run ts = R'.run ts') : Agrees R ts P x := by
  cases h with
  | failed herror => exact .failed (hrun.trans herror)
  | given ha => exact .given ha

theorem bind {g : α → Except Error β} (h : Agrees R ts P x)
    (hg : ∀ a, P a → Agrees R ts Q (g a)) : Agrees R ts Q (x >>= g) := by
  cases h with
  | failed herror => exact .failed herror
  | given ha => exact hg _ ha

end Agrees

/-- An item is due: the reader takes no token that does not begin one. -/
def Due (R : Reader) (ts : List Token) : Prop :=
  (∀ a, peek ts ≠ .symbol a) → peek ts ≠ .leftParen → R.run ts = unexpected (peek ts)

theorem due_expecting : Due (expecting outer alternatives) ts := by
  intro hsymbol hparen
  cases hpeek : peek ts with
  | endOfInput => exact run_of_end hpeek
  | symbol a => exact absurd hpeek (hsymbol a)
  | leftParen => exact absurd hpeek hparen
  | _ => exact run_of_error hpeek (by simp) rfl

/-- The reader takes an item and its suffixes up to a level. -/
structure TakesItem (k : Nat) (R : Reader) (p : Parsed ts) (suffix : Suffix) : Prop where
  run_eq : R.run ts = (holding R.outer R.before p.regex suffix).run p.rest
  level_le : suffix.level ≤ k
  level_le_of_next : ∀ next f, suffix? (peek p.rest) = some (next, f) → next.level ≤ k →
    next.level ≤ suffix.level

structure TakesItems (R : Reader) (p : Parsed ts) (b : Before) (last : Regex) (suffix : Suffix) :
    Prop where
  run_eq : R.run ts = (holding R.outer b last suffix).run p.rest
  alternatives_eq : b.alternatives = R.before.alternatives
  join_eq : b.join last = R.before.join p.regex
  next : peek p.rest = .endOfInput ∨ peek p.rest = .rightParen ∨ peek p.rest = .pipe

structure TakesAlternatives (outer : List Before) (alternatives : List Regex) (p : Parsed ts)
    (b : Before) (last : Regex) (suffix : Suffix) : Prop where
  run_eq : (expecting outer alternatives).run ts = (holding outer b last suffix).run p.rest
  close_eq : b.close last = alternatives.foldl (fun r alternative => union alternative r) p.regex
  next : peek p.rest = .endOfInput ∨ peek p.rest = .rightParen

/-- A suffix of the next level is taken if it is there. -/
theorem Agrees.readSuffix {x : Except Error (Parsed ts)} (hmark : suffix? mark = some (next, f))
    (hlevel : next.level = k + 1) (h : Agrees R ts (fun p => ∃ suffix, TakesItem k R p suffix) x) :
    Agrees R ts (fun p => ∃ suffix, TakesItem (k + 1) R p suffix)
      (x >>= fun p => pure (p.suffix mark f)) := by
  apply h.bind
  intro p hp
  obtain ⟨suffix, hp⟩ := hp
  apply Agrees.given
  by_cases hpeek : peek p.rest = mark
  · rw [Parsed.suffix, if_pos hpeek]
    have hend : mark ≠ .endOfInput := by
      rintro rfl
      cases hmark
    have hlt : suffix.level < next.level := by
      have := hp.level_le
      omega
    have hstep : (holding R.outer R.before p.regex suffix).step mark =
        .ok (holding R.outer R.before (f p.regex) next) := (step_suffix_eq hmark).trans (if_pos hlt)
    refine ⟨next, hp.run_eq.trans (run_of_step hpeek hend hstep), Nat.le_of_eq hlevel, ?_⟩
    intro next' _ _ hle
    rwa [hlevel]
  · rw [Parsed.suffix, if_neg hpeek]
    refine ⟨suffix, hp.run_eq, Nat.le_succ_of_le hp.level_le, ?_⟩
    intro next' f' hnext hle
    have hne : next'.level ≠ k + 1 := by
      intro heq
      exact hpeek (eq_of_level_eq hnext hmark (heq.trans hlevel.symm))
    exact hp.level_le_of_next next' f' hnext (by omega)

/-- After an item with all its suffixes another item is due, unless the alternative ends. -/
theorem TakesItem.due {p : Parsed ts} (h : TakesItem 3 R p suffix)
    (hend : peek p.rest ≠ .endOfInput) (hright : peek p.rest ≠ .rightParen)
    (hpipe : peek p.rest ≠ .pipe) : Due (holding R.outer R.before p.regex suffix) p.rest := by
  intro hsymbol hleft
  have hrefused : ∀ next f, suffix? (peek p.rest) = some (next, f) →
      (holding R.outer R.before p.regex suffix).run p.rest = unexpected (peek p.rest) := by
    intro next f hnext
    have hle := h.level_le_of_next next f hnext (by cases next <;> decide)
    apply run_of_error rfl hend
    rw [step_suffix_eq hnext, if_neg (Nat.not_lt.2 hle)]
    rfl
  cases hpeek : peek p.rest with
  | endOfInput => exact absurd hpeek hend
  | rightParen => exact absurd hpeek hright
  | pipe => exact absurd hpeek hpipe
  | symbol a => exact absurd hpeek (hsymbol a)
  | leftParen => exact absurd hpeek hleft
  | plus | asterisk | questionMark =>
    rw [hpeek] at hrefused
    exact hrefused _ _ rfl

mutual

theorem agrees_readUnion (ts : List Token) (outer : List Before) (alternatives : List Regex) :
    Agrees (expecting outer alternatives) ts
      (fun p => ∃ b last suffix, TakesAlternatives outer alternatives p b last suffix)
      (readUnion ts) := by
  rw [readUnion]
  apply (agrees_readConcat ts _ due_expecting).bind
  intro p hp
  obtain ⟨b, last, suffix, hp⟩ := hp
  split
  · next hpipe =>
    have hlength := p.shorter
    have hrun := hp.run_eq.trans (run_of_step hpipe (by simp) rfl)
    apply ((agrees_readUnion p.rest.tail _ _).of_run_eq hrun).bind
    intro q hq
    obtain ⟨b', last', suffix', hq⟩ := hq
    apply Agrees.given
    refine ⟨b', last', suffix', hrun.trans hq.run_eq, ?_, hq.next⟩
    rw [hq.close_eq, hp.alternatives_eq]
    show List.foldl _ (union (b.join last) q.regex) _ = _
    rw [hp.join_eq]
    rfl
  · next hpipe =>
    apply Agrees.given
    refine ⟨b, last, suffix, hp.run_eq, ?_, ?_⟩
    · show List.foldl _ (b.join last) b.alternatives = _
      rw [hp.join_eq, hp.alternatives_eq]
      rfl
    · rcases hp.next with hnext | hnext | hnext
      · exact .inl hnext
      · exact .inr hnext
      · exact absurd hnext hpipe
termination_by 6 * ts.length + 5

theorem agrees_readConcat (ts : List Token) (R : Reader) (hR : Due R ts) :
    Agrees R ts (fun p => ∃ b last suffix, TakesItems R p b last suffix) (readConcat ts) := by
  rw [readConcat]
  apply (agrees_readOption ts R hR).bind
  intro p hp
  obtain ⟨suffix, hp⟩ := hp
  have hlength := p.shorter
  have hdone : ∀ t, peek p.rest = t → t = .endOfInput ∨ t = .rightParen ∨ t = .pipe →
      Agrees R ts (fun p => ∃ b last suffix, TakesItems R p b last suffix) (pure p) := by
    intro t hpeek ht
    rw [← hpeek] at ht
    exact .given ⟨R.before, p.regex, suffix, hp.run_eq, rfl, rfl, ht⟩
  split
  · next hpeek => exact hdone _ hpeek (.inl rfl)
  · next hpeek => exact hdone _ hpeek (.inr (.inl rfl))
  · next hpeek => exact hdone _ hpeek (.inr (.inr rfl))
  · next hend hright hpipe =>
    have hdue := hp.due hend hright hpipe
    apply ((agrees_readConcat p.rest _ hdue).of_run_eq hp.run_eq).bind
    intro q hq
    obtain ⟨b, last, suffix', hq⟩ := hq
    exact .given ⟨b, last, suffix', hp.run_eq.trans hq.run_eq, hq.alternatives_eq, hq.join_eq, hq.next⟩
termination_by 6 * ts.length + 4

theorem agrees_readOption (ts : List Token) (R : Reader) (hR : Due R ts) :
    Agrees R ts (fun p => ∃ suffix, TakesItem 3 R p suffix) (readOption ts) := by
  rw [readOption]
  exact (agrees_readStar ts R hR).readSuffix rfl rfl
termination_by 6 * ts.length + 3

theorem agrees_readStar (ts : List Token) (R : Reader) (hR : Due R ts) :
    Agrees R ts (fun p => ∃ suffix, TakesItem 2 R p suffix) (readStar ts) := by
  rw [readStar]
  exact (agrees_readPlus ts R hR).readSuffix rfl rfl
termination_by 6 * ts.length + 2

theorem agrees_readPlus (ts : List Token) (R : Reader) (hR : Due R ts) :
    Agrees R ts (fun p => ∃ suffix, TakesItem 1 R p suffix) (readPlus ts) := by
  rw [readPlus]
  exact (agrees_readPrimary ts R hR).readSuffix rfl rfl
termination_by 6 * ts.length + 1

theorem agrees_readPrimary (ts : List Token) (R : Reader) (hR : Due R ts) :
    Agrees R ts (fun p => ∃ suffix, TakesItem 0 R p suffix) (readPrimary ts) := by
  unfold readPrimary
  split
  · next ts =>
    have hrun : R.run (.leftParen :: ts) = (expecting (R.before :: R.outer) []).run ts :=
      run_of_step (t := .leftParen) rfl (by simp) step_leftParen
    apply ((agrees_readUnion ts _ _).of_run_eq hrun).bind
    intro p hp
    obtain ⟨b, last, suffix, hp⟩ := hp
    split
    · next hright =>
      apply Agrees.given
      refine ⟨.bare, ?_, Nat.le_refl _, fun _ _ _ hle => hle⟩
      rw [hrun, hp.run_eq, run_of_step hright (by simp) rfl, hp.close_eq]
      rfl
    · next hright =>
      apply Agrees.failed
      rw [hrun, hp.run_eq, run_of_end (hp.next.resolve_right hright)]
      rfl
  · next a ts =>
    apply Agrees.given
    exact ⟨.bare, run_of_step (t := .symbol a) rfl (by simp) step_symbol, Nat.le_refl _,
      fun _ _ _ hle => hle⟩
  · next hleft hsymbol =>
    apply Agrees.failed
    apply hR
    · intro a hpeek
      cases ts with
      | nil => cases hpeek
      | cons t ts => exact hsymbol a ts (congrArg (· :: ts) hpeek)
    · intro hpeek
      cases ts with
      | nil => cases hpeek
      | cons t ts => exact hleft ts (congrArg (· :: ts) hpeek)
termination_by 6 * ts.length

end

end Reader

/-- Reading by descent and reading in one pass give the same expression or the same error. -/
theorem ofTokens_eq_run (ts : List Token) : ofTokens ts = Reader.start.run ts := by
  have h : Reader.Agrees .start ts (fun r => Reader.start.run ts = .ok r) (ofTokens ts) := by
    apply (Reader.agrees_readUnion ts [] []).bind
    intro p hp
    obtain ⟨b, last, suffix, hp⟩ := hp
    rcases hp.next with hnext | hnext
    · rw [hnext]
      apply Reader.Agrees.given
      refine hp.run_eq.trans ((Reader.run_of_end hnext).trans ?_)
      exact congrArg Except.ok hp.close_eq
    · rw [hnext]
      exact .failed (hp.run_eq.trans (Reader.run_of_error hnext (by simp) rfl))
  generalize ofTokens ts = x at h
  cases h with
  | failed herror => exact herror.symm
  | given hr => exact hr.symm

end FormalLanguages.Regex
