import FormalLanguages.Chart.Enumeration
import FormalLanguages.Proofs.Chart.Membership
import FormalLanguages.Proofs.Grammar.Inline
import Mathlib.Logic.Function.Iterate

/-!
# What is listed

A search that has come to some state still has a list of sentences to give. The list is known from
the frames alone, and one turn of the search removes its first sentence or leaves it as it is. At
first, it is the list of all sentences of the length in question.
-/

namespace FormalLanguages

open Std

namespace Chart

variable {c : Chart} {m : Nat} {u w : List String}

/-- The sentences with `m` more tokens than `u` that begin with `u`, in ascending order. -/
def extending (c : Chart) : Nat → List String → List (List String)
  | 0, u => if stopItem ∈ c.column u then [u] else []
  | m + 1, u => (c.scans (c.column u)).keys.flatMap fun t => extending c m (u ++ [t])

theorem mem_extending_iff :
    w ∈ c.extending m u ↔ ∃ x, u ++ x = w ∧ x.length = m ∧ stopItem ∈ c.column w := by
  induction m generalizing u with
  | zero =>
    rw [extending]
    split
    · next h =>
      rw [List.mem_singleton]
      constructor
      · rintro rfl
        exact ⟨[], List.append_nil _, rfl, h⟩
      · rintro ⟨x, rfl, hx, -⟩
        rw [List.eq_nil_of_length_eq_zero hx, List.append_nil]
    · next h =>
      constructor
      · intro hw
        cases hw
      · rintro ⟨x, rfl, hx, hstop⟩
        rw [List.eq_nil_of_length_eq_zero hx, List.append_nil] at hstop
        exact absurd hstop h
  | succ m ih =>
    rw [extending, List.mem_flatMap]
    constructor
    · rintro ⟨t, -, hw⟩
      obtain ⟨x, rfl, hx, hstop⟩ := ih.1 hw
      refine ⟨t :: x, ?_, ?_, hstop⟩
      · rw [List.append_assoc]
        rfl
      · rw [List.length_cons, hx]
    · rintro ⟨x, rfl, hx, hstop⟩
      cases x with
      | nil => cases hx
      | cons t x =>
        have happend : (u ++ [t]) ++ x = u ++ t :: x := by
          rw [List.append_assoc]
          rfl
        obtain ⟨i, hi⟩ := exists_mem_of_append (happend ▸ hstop)
        obtain ⟨j, hj, hnext⟩ := exists_scan_of_mem hi
        refine ⟨t, ExtTreeMap.mem_keys.2 (mem_scans.2 ⟨j, hj, hnext⟩), ih.2 ⟨x, happend, ?_, hstop⟩⟩
        exact Nat.succ.inj hx

theorem extending_ascending : (c.extending m u).Pairwise (· < ·) := by
  induction m generalizing u with
  | zero =>
    rw [extending]
    split
    · exact List.pairwise_singleton _ _
    · exact List.Pairwise.nil
  | succ m ih =>
    rw [extending, List.pairwise_flatMap]
    refine ⟨fun t _ => ih, ?_⟩
    apply ExtTreeMap.ordered_keys.imp
    intro s t hst x hx y hy
    have hlt : s < t := compareOfLessAndEq_eq_lt.1 hst
    obtain ⟨x, rfl, -⟩ := mem_extending_iff.1 hx
    obtain ⟨y, rfl, -⟩ := mem_extending_iff.1 hy
    rw [List.append_assoc, List.append_assoc]
    exact List.append_left_lt (List.cons_lt_cons_iff.2 (.inl hlt))

end Chart

namespace Enumeration

variable {c : Chart} {e e' : Enumeration} {n k : Nat} {w : List String}

/-- The sentences that some frames will lead to. The first frame is the one for the given tokens,
of which the last one comes first. -/
def remaining (c : Chart) (n : Nat) : List String → List (List Scan) → List (List String)
  | _, [] => []
  | tokens, frame :: frames =>
    (frame.flatMap fun scan =>
      c.extending (n - (tokens.length + 1)) (tokens.reverse ++ [scan.1])) ++
      remaining c n tokens.tail frames

def pending (e : Enumeration) : List (List String) :=
  (if e.emptySentence then [[]] else []) ++ remaining e.chart e.length e.tokens e.frames

/-- The scans in a frame are some of those of the column after the tokens. -/
def Fits (c : Chart) (tokens : List String) (frame : List Scan) : Prop :=
  ∀ scan ∈ frame, (c.scans (c.column tokens.reverse))[scan.1]? = some scan.2

/-- There is a frame after each of the tokens and one before the first. -/
inductive Stacked (c : Chart) : List String → List (List Scan) → Prop
  | lowest {frame} : Fits c [] frame → Stacked c [] [frame]
  | push {t tokens frame frames} : Fits c (t :: tokens) frame → Stacked c tokens frames →
    Stacked c (t :: tokens) (frame :: frames)

/-- What holds between two turns. The columns, the frames and the tokens are in step as long as
there is a frame. -/
structure InStep (e : Enumeration) : Prop where
  length : e.tokens.length < e.length
  columns : e.columns =
    (e.chart.earlier e.tokens.reverse).push (e.chart.column e.tokens.reverse)
  stacked : Stacked e.chart e.tokens e.frames

def Sound (e : Enumeration) : Prop := e.frames = [] ∨ e.InStep

/-- What a turn may come to: the first of the pending sentences is found, or they stay as they
are. -/
def Keeps (e : Enumeration) : Turn → Prop
  | .over => e.pending = []
  | .moved e' => e'.Sound ∧ e'.emptySentence = false ∧ e'.pending = e.pending
  | .found w e' => e'.Sound ∧ w :: e'.pending = e.pending

/-- The frame that is tried out is dropped, with its column and the token that led there. -/
theorem InStep.drop {frames : List (List Scan)} (h : e.InStep) (hf : e.frames = [] :: frames) :
    Sound { e with frames, columns := e.columns.pop, tokens := e.tokens.tail } := by
  obtain ⟨hlength, hcolumns, hstacked⟩ := h
  rw [hf] at hstacked
  cases htokens : e.tokens with
  | nil =>
    rw [htokens] at hstacked
    cases hstacked
    exact .inl rfl
  | cons t tokens =>
    rw [htokens] at hstacked hlength hcolumns
    cases hstacked with
    | push _ hstacked =>
      refine .inr ⟨Nat.lt_of_succ_lt hlength, ?_, hstacked⟩
      show e.columns.pop = _
      rw [hcolumns, Array.pop_push, List.reverse_cons, Chart.earlier_append]
      rfl

theorem Fits.tail {tokens : List String} {scan : Scan} {frame : List Scan}
    (h : Fits c tokens (scan :: frame)) : Fits c tokens frame :=
  fun scan hscan => h scan (List.mem_cons_of_mem _ hscan)

theorem Stacked.tail {tokens : List String} {scan : Scan} {frame : List Scan}
    {frames : List (List Scan)} (h : Stacked c tokens ((scan :: frame) :: frames)) :
    Stacked c tokens (frame :: frames) := by
  cases h with
  | lowest h => exact .lowest h.tail
  | push h hframes => exact .push h.tail hframes

theorem Stacked.fits {tokens : List String} {frame : List Scan} {frames : List (List Scan)}
    (h : Stacked c tokens (frame :: frames)) : Fits c tokens frame := by
  cases h with
  | lowest h => exact h
  | push h _ => exact h

theorem fits_scans (c : Chart) (tokens : List String) :
    Fits c tokens (c.scans (c.column tokens.reverse)).toList :=
  fun _ hscan => ExtTreeMap.mem_toList_iff_getElem?_eq_some.1 hscan

/-- The column that is made for a scan is the one after its token. -/
theorem InStep.close_eq {t : String} {items : List Item} {frame : List Scan}
    {frames : List (List Scan)} (h : e.InStep) (hf : e.frames = ((t, items) :: frame) :: frames) :
    e.chart.close e.columns items = e.chart.column (t :: e.tokens).reverse := by
  have hitems := (hf ▸ h.stacked).fits (t, items) (List.mem_cons_self ..)
  rw [List.reverse_cons, Chart.column_append, Chart.earlier_append, ← h.columns,
    ExtTreeMap.getD_eq_getD_getElem?, hitems]
  rfl

/-- The scans of the new column take the place of the one scan that led to it. -/
theorem remaining_push {t : String} {items : List Item} {tokens : List String} {frame : List Scan}
    {frames : List (List Scan)} (hlt : tokens.length + 1 < n) :
    remaining c n (t :: tokens)
      ((c.scans (c.column (t :: tokens).reverse)).toList :: frame :: frames) =
      remaining c n tokens (((t, items) :: frame) :: frames) := by
  have hn : n - (tokens.length + 1) = n - (tokens.length + 1 + 1) + 1 := by omega
  rw [remaining, remaining, remaining, List.tail_cons, List.length_cons, List.flatMap_cons, hn,
    Chart.extending, ← ExtTreeMap.map_fst_toList_eq_keys, List.flatMap_map, List.reverse_cons,
    List.append_assoc]

theorem remaining_try {t : String} {items : List Item} {tokens : List String} {frame : List Scan}
    {frames : List (List Scan)} (hn : n = tokens.length + 1) :
    remaining c n tokens (((t, items) :: frame) :: frames) =
      (if Chart.stopItem ∈ c.column (t :: tokens).reverse then [(t :: tokens).reverse] else []) ++
        remaining c n tokens (frame :: frames) := by
  rw [remaining, remaining, List.flatMap_cons, List.append_assoc, hn, Nat.sub_self, Chart.extending,
    List.reverse_cons]

theorem InStep.turn_keeps (h : e.InStep) (hempty : e.emptySentence = false) :
    e.Keeps e.turn := by
  unfold turn
  split
  · next hf =>
    rw [Keeps, pending, hempty, hf]
    rfl
  · next frames hf =>
    refine ⟨h.drop hf, hempty, ?_⟩
    rw [pending, pending, hf]
    rfl
  · next t items frame frames hf =>
    have hclose := h.close_eq hf
    have htail := (hf ▸ h.stacked).tail
    dsimp only
    rw [hclose]
    split
    · next hlt =>
      refine ⟨.inr ⟨hlt, ?_, .push (fits_scans e.chart (t :: e.tokens)) htail⟩, hempty, ?_⟩
      · show e.columns.push _ = _
        rw [h.columns, List.reverse_cons, Chart.earlier_append]
      · rw [pending, pending, hf, remaining_push hlt]
    · next hge =>
      have hlength : e.length = e.tokens.length + 1 := by
        have hlt := h.length
        omega
      split
      · next hstop =>
        refine ⟨.inr ⟨h.length, h.columns, htail⟩, ?_⟩
        rw [pending, pending, hf, remaining_try hlength, if_pos hstop, hempty]
        rfl
      · next hstop =>
        refine ⟨.inr ⟨h.length, h.columns, htail⟩, hempty, ?_⟩
        rw [pending, pending, hf, remaining_try hlength, if_neg hstop]
        rfl

theorem Sound.turn_keeps (h : e.Sound) (hempty : e.emptySentence = false) :
    e.Keeps e.turn := by
  rcases h with h | h
  · rw [turn, h, Keeps, pending, hempty, h]
    rfl
  · exact h.turn_keeps hempty

theorem next_of_turn (hempty : e.emptySentence = false) : e.next = match e.turn with
    | .over => (none, e)
    | .moved e' => e'.next
    | .found w e' => (some w, e') := by
  rw [next, if_neg (Bool.not_eq_true _ ▸ hempty)]
  split <;> simp [*]

/-- The next sentence is the first that is pending, if there is one, and is not pending then. -/
theorem Sound.next (h : e.Sound) : e.next.2.Sound ∧ e.next.1 = e.pending.head? ∧
    e.next.2.pending = e.pending.tail := by
  induction e using next.induct with
  | case1 e hempty =>
    rw [Enumeration.next, if_pos hempty, pending, pending, if_pos hempty]
    refine ⟨h.imp_right fun h => ⟨h.length, h.columns, h.stacked⟩, rfl, rfl⟩
  | case2 e hempty hturn =>
    have hkeeps := h.turn_keeps (Bool.eq_false_iff.2 hempty)
    rw [hturn] at hkeeps
    rw [next_of_turn (Bool.eq_false_iff.2 hempty), hturn]
    have hnil : e.pending = [] := hkeeps
    refine ⟨h, ?_, ?_⟩
    · rw [hnil]
      rfl
    · rw [hnil, List.tail_nil]
  | case3 e hempty e' hturn _ ih =>
    have hkeeps := h.turn_keeps (Bool.eq_false_iff.2 hempty)
    rw [hturn] at hkeeps
    obtain ⟨hsound, -, hpending⟩ := hkeeps
    rw [next_of_turn (Bool.eq_false_iff.2 hempty), hturn, ← hpending]
    exact ih hsound
  | case4 e hempty w e' hturn =>
    have hkeeps := h.turn_keeps (Bool.eq_false_iff.2 hempty)
    rw [hturn] at hkeeps
    obtain ⟨hsound, hpending⟩ := hkeeps
    rw [next_of_turn (Bool.eq_false_iff.2 hempty), hturn, ← hpending]
    exact ⟨hsound, rfl, rfl⟩

/-- The sentences come one after another, and when there are no more, there is none ever after. -/
theorem Sound.iterate (h : e.Sound) (k : Nat) :
    ((fun e => e.next.2)^[k] e).Sound ∧ ((fun e => e.next.2)^[k] e).pending = e.pending.drop k := by
  induction k with
  | zero => exact ⟨h, rfl⟩
  | succ k ih =>
    obtain ⟨hsound, hpending⟩ := ih
    obtain ⟨hnext, -, htail⟩ := hsound.next
    rw [Function.iterate_succ_apply']
    refine ⟨hnext, ?_⟩
    rw [htail, hpending, List.tail_drop]

theorem Sound.take (h : e.Sound) (k : Nat) : e.take k = e.pending.take k := by
  induction k generalizing e with
  | zero => rfl
  | succ k ih =>
    obtain ⟨hnext, hhead, htail⟩ := h.next
    rw [Enumeration.take]
    cases hpending : e.pending with
    | nil =>
      rw [hpending] at hhead
      split
      · next hn =>
        rw [hn] at hhead
        cases hhead
      · rfl
    | cons w ws =>
      rw [hpending] at hhead htail
      split
      · next hn =>
        rw [hn] at hhead hnext htail
        cases hhead
        rw [ih hnext, htail]
        rfl
      · next hn =>
        rw [hn] at hhead
        cases hhead

/-- At first, all sentences of the length are pending. -/
theorem sound_enumerate (c : Chart) (n : Nat) :
    (c.enumerate n).Sound ∧ (c.enumerate n).pending = c.extending n [] := by
  cases n with
  | zero =>
    have hempty : (c.enumerate 0).emptySentence = decide (Chart.stopItem ∈ c.column []) := rfl
    refine ⟨.inl rfl, ?_⟩
    rw [pending, Chart.extending, hempty]
    simp only [decide_eq_true_eq]
    exact List.append_nil _
  | succ n =>
    have hempty : (c.enumerate (n + 1)).emptySentence = false := by simp [Chart.enumerate]
    refine ⟨.inr ⟨Nat.zero_lt_succ n, rfl, .lowest (fits_scans c [])⟩, ?_⟩
    rw [pending, Chart.extending, hempty, ← ExtTreeMap.map_fst_toList_eq_keys, List.flatMap_map]
    exact List.append_nil _

end Enumeration

/-- What is listed with a limit is the beginning of all there is. -/
theorem Chart.sentences_eq_take (c : Chart) (n limit : Nat) :
    c.sentences n limit = (c.extending n []).take limit := by
  obtain ⟨hsound, hpending⟩ := Enumeration.sound_enumerate c n
  rw [sentences, hsound.take, hpending]

theorem Chart.nodup_extending (c : Chart) (n : Nat) : (c.extending n []).Nodup := by
  apply List.Pairwise.imp _ extending_ascending
  intro v w hlt heq
  exact List.lt_irrefl w (heq ▸ hlt)

namespace Grammar

open Chart

/-- What the generator lists are the sentences of the grammar, which was simplified for it. -/
theorem WellFormed.mem_extending_generator_iff {g : Grammar} (hg : g.WellFormed) {n : Nat}
    {w : List String} : w ∈ g.generator.extending n [] ↔ w.length = n ∧ g.Derives w := by
  have heq := hg.equivalent_simplify
  rw [mem_extending_iff, ← heq.derives, ← stopItem_mem_column_iff heq.wellFormed]
  constructor
  · rintro ⟨x, rfl, hx, hstop⟩
    exact ⟨hx, hstop⟩
  · rintro ⟨hw, hstop⟩
    exact ⟨w, rfl, hw, hstop⟩

/-- The sentences of one length, in ascending order and without repetition, are what the listing
gives call by call, and after them it gives nothing. -/
theorem sentences_of_generator {g : Grammar} (hg : g.WellFormed) (n : Nat) :
    (∀ u, g.generator.Finishes u) ∧ ∃ ws : List (List String),
      (∀ w, w ∈ ws ↔ w.length = n ∧ g.Derives w) ∧
      (∀ w, w ∈ ws ↔ w.length = n ∧ g.accepts w = true) ∧
      ws.Pairwise (· < ·) ∧ ws.Nodup ∧
      (∀ k, ((fun e => e.next.2)^[k] (g.generator.enumerate n)).next.1 = ws[k]?) ∧
      ∀ limit, g.generator.sentences n limit = ws.take limit ∧
        g.generator.texts n limit = (ws.take limit).map String.join := by
  have heq := hg.equivalent_simplify
  obtain ⟨hsound, hpending⟩ := Enumeration.sound_enumerate g.generator n
  have hmem : ∀ w, w ∈ g.generator.extending n [] ↔ w.length = n ∧ g.Derives w := by
    intro w
    rw [mem_extending_iff, ← heq.derives, ← stopItem_mem_column_iff heq.wellFormed]
    constructor
    · rintro ⟨x, rfl, hx, hstop⟩
      exact ⟨hx, hstop⟩
    · rintro ⟨hw, hstop⟩
      exact ⟨w, rfl, hw, hstop⟩
  refine ⟨(indexed_ofGrammar heq.wellFormed).finishes, g.generator.extending n [], hmem, ?_,
    extending_ascending, ?_, ?_, ?_⟩
  · intro w
    rw [hmem, ← stopItem_mem_column_iff hg, accepts, reads_iff]
  · apply List.Pairwise.imp _ extending_ascending
    intro v w hlt heq
    exact List.lt_irrefl w (heq ▸ hlt)
  · intro k
    obtain ⟨hk, hrest⟩ := hsound.iterate k
    rw [hk.next.2.1, hrest, hpending, List.head?_drop]
  · intro limit
    rw [texts, sentences, hsound.take, hpending]
    exact ⟨rfl, rfl⟩

theorem sentences_of_nested : nested.WellFormed ∧
    ∃ limit, ["a", "a", "b", "b"] ∈ nested.generator.sentences 4 limit := by
  obtain ⟨-, ws, hmem, -, -, -, -, htake⟩ := sentences_of_generator nested_wellFormed 4
  refine ⟨nested_wellFormed, ws.length, ?_⟩
  rw [(htake _).1, List.take_length]
  exact (hmem _).2 ⟨rfl, nested_derives 2⟩

end Grammar

end FormalLanguages
