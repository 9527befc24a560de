import FormalLanguages.Chart.Basic
import FormalLanguages.Grammar.Inline

/-!
# Enumeration

The sentences of one length are listed in the order of their tokens. No input is given: the
columns are made for the tokens tried so far, depth first, and dropped again when all that can
come next has been tried. Different tokens lead to different sentences, so none is listed twice.
-/

namespace FormalLanguages

open Std

/-- A terminal that can be read and the items that come next. -/
abbrev Scan := String × List Item

/-- Where the listing of the sentences of one length stands. A frame holds the scans of a column
that are not tried yet. There is one more column, and one more frame, than there are tokens. -/
structure Enumeration where
  chart : Chart
  length : Nat
  columns : Array Column
  /-- The frame of the last column comes first. -/
  frames : List (List Scan)
  /-- The token read last comes first. -/
  tokens : List String
  /-- The empty sentence is still to be listed. -/
  emptySentence : Bool

def Chart.enumerate (c : Chart) (n : Nat) : Enumeration :=
  { chart := c
    length := n
    columns := #[c.first]
    frames := if n = 0 then [] else [(c.scans c.first).toList]
    tokens := []
    emptySentence := n = 0 && stopItem ∈ c.first }

/-- What one turn of the search comes to. -/
inductive Turn where
  /-- There is nothing left to try. -/
  | over
  /-- The search has moved on. -/
  | moved (e : Enumeration)
  /-- A sentence is complete. -/
  | found (sentence : List String) (e : Enumeration)

namespace Enumeration

/-- Tries the next scan of the last frame, or drops the frame if there is none, with its column
and the token that led there. -/
def turn (e : Enumeration) : Turn :=
  match e.frames with
  | [] => .over
  | [] :: frames =>
    .moved { e with frames, columns := e.columns.pop, tokens := e.tokens.tail }
  | ((t, items) :: frame) :: frames =>
    let rest := { e with frames := frame :: frames }
    let column := e.chart.close e.columns items
    if e.tokens.length + 1 < e.length then
      .moved { rest with
        columns := e.columns.push column
        frames := (e.chart.scans column).toList :: rest.frames
        tokens := t :: e.tokens }
    else if Chart.stopItem ∈ column then .found (t :: e.tokens).reverse rest
    else .moved rest

/-- A number for what is left to try. A frame `k` levels above the lowest one counts the `k`-th
power of `b` for each of its scans and once for itself. -/
def weigh (b : Nat) : Nat → List (List Scan) → Nat
  | _, [] => 0
  | k, frame :: frames => (frame.length + 1) * Nat.pow b k + weigh b (k + 1) frames

def weight (e : Enumeration) : Nat :=
  weigh (e.chart.dots + 2) (e.length - e.tokens.length) e.frames

theorem weigh_mono {b j k : Nat} (hb : 0 < b) (h : j ≤ k) (frames : List (List Scan)) :
    weigh b j frames ≤ weigh b k frames := by
  induction frames generalizing j k with
  | nil => exact Nat.le_refl _
  | cons frame frames ih =>
    have hpow : Nat.pow b j ≤ Nat.pow b k := Nat.pow_le_pow_right hb h
    exact Nat.add_le_add (Nat.mul_le_mul_left _ hpow) (ih (Nat.succ_le_succ h))

theorem weigh_drop {b j k : Nat} (hb : 0 < b) (h : j ≤ k + 1) (frames : List (List Scan)) :
    weigh b j frames < weigh b k ([] :: frames) := by
  have hpos : 0 < Nat.pow b k := Nat.pow_pos hb
  have hle := weigh_mono hb h frames
  simp only [weigh, List.length_nil]
  omega

theorem weigh_try {b k : Nat} (hb : 0 < b) (scan : Scan) (frame : List Scan)
    (frames : List (List Scan)) :
    weigh b k (frame :: frames) < weigh b k ((scan :: frame) :: frames) := by
  have hpos : 0 < Nat.pow b k := Nat.pow_pos hb
  simp only [weigh, List.length_cons, Nat.add_mul]
  omega

theorem weigh_push {b k : Nat} {new : List Scan} (hb : new.length + 1 < b) (scan : Scan)
    (frame : List Scan) (frames : List (List Scan)) :
    weigh b k (new :: frame :: frames) < weigh b (k + 1) ((scan :: frame) :: frames) := by
  have hpos : 0 < Nat.pow b k := Nat.pow_pos (by omega)
  have hlt : (new.length + 1) * Nat.pow b k < b * Nat.pow b k := Nat.mul_lt_mul_of_pos_right hb hpos
  have hsucc : Nat.pow b (k + 1) = b * Nat.pow b k := Nat.mul_comm _ _
  simp only [weigh, List.length_cons, Nat.add_mul, hsucc] at *
  omega

theorem weight_turn {e e' : Enumeration} (h : e.turn = .moved e') : e'.weight < e.weight := by
  have hb : 0 < e.chart.dots + 2 := by omega
  unfold turn at h
  split at h
  · cases h
  · next frames hf =>
    cases h
    rw [weight, weight, hf]
    apply weigh_drop hb
    simp only [List.length_tail]
    omega
  · next t items frame frames hf =>
    dsimp only at h
    split at h
    · next hlt =>
      cases h
      have hk : e.length - e.tokens.length = e.length - (e.tokens.length + 1) + 1 := by omega
      have hnew := Chart.size_scans_le e.chart (e.chart.close e.columns items)
      rw [weight, weight, hf, hk]
      apply weigh_push
      simp only [ExtTreeMap.length_toList]
      omega
    · split at h
      · cases h
      · cases h
        rw [weight, weight, hf]
        exact weigh_try hb ..

/-- The next sentence, and where the listing stands then. -/
def next (e : Enumeration) : Option (List String) × Enumeration :=
  if e.emptySentence then (some [], { e with emptySentence := false })
  else match h : e.turn with
    | .over => (none, e)
    | .moved e' =>
      have := weight_turn h
      next e'
    | .found w e' => (some w, e')
termination_by e.weight

/-- The next sentences, `limit` at most. -/
def take : Nat → Enumeration → List (List String)
  | 0, _ => []
  | limit + 1, e =>
    match e.next with
    | (some w, e) => w :: take limit e
    | (none, _) => []

end Enumeration

namespace Chart

/-- The first sentences of length `n`, `limit` at most. -/
def sentences (c : Chart) (n limit : Nat) : List (List String) := (c.enumerate n).take limit

/-- The texts of the first sentences, each the tokens one after another. -/
def texts (c : Chart) (n limit : Nat) : List String := (c.sentences n limit).map String.join

end Chart

/-- The chart for listing sentences. The grammar is simplified, so that there are fewer dead
ends. -/
def Grammar.generator (g : Grammar) : Chart := Chart.ofGrammar g.simplify

end FormalLanguages
