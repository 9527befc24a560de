import FormalLanguages.LineFormat.Pushdowns
import FormalLanguages.Proofs.Fresh
import FormalLanguages.Proofs.Text
import Mathlib.Data.List.Induction
import Mathlib.Data.List.Nodup

/-!
# Numbering names

A name is numbered when it is met for the first time, between the reading of one line and of the
next. What comes of it is as if all names had been gathered first, and numbered by their places
among the different ones.
-/

namespace FormalLanguages

open Std

/-! ### Different values in the order in which they come first -/

section EraseDups

variable {α : Type} [BEq α] [LawfulBEq α] {l r : List α} {a : α} {i : Nat}

theorem eraseDups_concat_of_mem (h : a ∈ l) : (l ++ [a]).eraseDups = l.eraseDups := by
  have hnone : [a].removeAll l = [] := by simp [List.removeAll, h]
  rw [List.eraseDups_append, hnone, List.eraseDups_nil, List.append_nil]

theorem eraseDups_concat_of_not_mem (h : a ∉ l) : (l ++ [a]).eraseDups = l.eraseDups ++ [a] := by
  have hone : [a].removeAll l = [a] := by simp [List.removeAll, h]
  rw [List.eraseDups_append, hone]
  rfl

theorem nodup_eraseDups (l : List α) : l.eraseDups.Nodup := by
  induction l using List.reverseRecOn with
  | nil => exact List.nodup_nil
  | append_singleton l a ih =>
    by_cases h : a ∈ l
    · rwa [eraseDups_concat_of_mem h]
    · rw [eraseDups_concat_of_not_mem h]
      rw [← List.concat_eq_append]
      exact ih.concat fun hmem => h (List.mem_eraseDups.1 hmem)

theorem eraseDups_prefix_append (l r : List α) : l.eraseDups <+: (l ++ r).eraseDups := by
  rw [List.eraseDups_append]
  exact List.prefix_append _ _

/-- A value keeps its place when more are added at the end. -/
theorem idxOf_eraseDups_append (h : a ∈ l) :
    (l ++ r).eraseDups.idxOf a = l.eraseDups.idxOf a := by
  rw [List.eraseDups_append, List.idxOf_append_of_mem (List.mem_eraseDups.2 h)]

theorem getElem?_eraseDups_eq_some_iff :
    l.eraseDups[i]? = some a ↔ a ∈ l ∧ i = l.eraseDups.idxOf a := by
  constructor
  · intro h
    have hmem := List.mem_of_getElem? h
    obtain ⟨hi, rfl⟩ := List.getElem?_eq_some_iff.1 h
    exact ⟨List.mem_eraseDups.1 hmem, ((nodup_eraseDups l).idxOf_getElem i hi).symm⟩
  · rintro ⟨ha, rfl⟩
    exact List.getElem?_idxOf (List.mem_eraseDups.2 ha)

end EraseDups

namespace LineFormat

variable {α β : Type} {met ms ms' : List (List Char)} {name : List Char} {names : Names}
  {s : Supply}

def placeIn (met : List (List Char)) (name : List Char) : State := met.eraseDups.idxOf name

/-- The names met have their places as numbers, and the numbers from there on are left. -/
structure Numbers (met : List (List Char)) (names : Names) (s : Supply) : Prop where
  known : ∀ name ∈ met, names[name]? = some (placeIn met name)
  unknown : ∀ name, name ∉ met → names[name]? = none
  next_eq : s.next = met.eraseDups.length
  room : met.eraseDups.length ≤ State.last

theorem numbers_empty : Numbers [] ∅ {} := by
  constructor
  case known =>
    intro name h
    cases h
  case unknown => exact fun name _ => ExtTreeMap.getElem?_empty
  case next_eq => rfl
  case room => exact Nat.zero_le _

theorem Numbers.of_mem (h : Numbers met names s) (hname : name ∈ met) :
    Numbers (met ++ [name]) names s := by
  have hsame : ∀ other, other ∈ met ++ [name] ↔ other ∈ met := by
    intro other
    rw [List.mem_append, List.mem_singleton]
    exact or_iff_left_of_imp fun heq => heq ▸ hname
  constructor
  case known =>
    intro other hother
    have hother := (hsame other).1 hother
    rw [h.known other hother, placeIn, placeIn, idxOf_eraseDups_append hother]
  case unknown =>
    exact fun other hother => h.unknown other fun hmem => hother ((hsame other).2 hmem)
  case next_eq =>
    rw [eraseDups_concat_of_mem hname, h.next_eq]
  case room =>
    rw [eraseDups_concat_of_mem hname]
    exact h.room

theorem Numbers.insert (h : Numbers met names s) (hname : name ∉ met)
    (hnext : s.next < State.last) :
    Numbers (met ++ [name]) (names.insert name s.next) ⟨s.next + 1⟩ := by
  have hplace : placeIn (met ++ [name]) name = s.next := by
    have hnone : name ∉ met.eraseDups := fun hmem => hname (List.mem_eraseDups.1 hmem)
    rw [placeIn, eraseDups_concat_of_not_mem hname, List.idxOf_append_of_notMem hnone,
      List.idxOf_cons_self, h.next_eq]
    exact Nat.add_zero _
  constructor
  case known =>
    intro other hother
    simp only [ExtTreeMap.getElem?_insert, LawfulEqCmp.compare_eq_iff_eq]
    split
    · next heq => rw [← heq, hplace]
    · next hne =>
      have hother : other ∈ met :=
        (List.mem_append.1 hother).resolve_right fun h => hne (List.mem_singleton.1 h).symm
      rw [h.known other hother, placeIn, placeIn, idxOf_eraseDups_append hother]
  case unknown =>
    intro other hother
    rw [List.mem_append, List.mem_singleton, not_or] at hother
    simp only [ExtTreeMap.getElem?_insert, LawfulEqCmp.compare_eq_iff_eq]
    rw [if_neg fun h => hother.2 h.symm, h.unknown other hother.1]
  case next_eq =>
    rw [eraseDups_concat_of_not_mem hname, List.length_append, h.next_eq]
    rfl
  case room =>
    rw [eraseDups_concat_of_not_mem hname, List.length_append, ← h.next_eq]
    exact hnext

/-! ### What a computation meets -/

/-- The computation meets some names, and gives a value that depends on their numbers alone. It
fails only for want of numbers. -/
structure Meets (x : Naming α) (ms : List (List Char)) (value : (List Char → State) → α) :
    Prop where
  ok : ∀ {met names s}, Numbers met names s → (met ++ ms).eraseDups.length ≤ State.last →
    ∃ names' s', x names s = .ok ((value (placeIn (met ++ ms)), names'), s') ∧
      Numbers (met ++ ms) names' s'
  outOfStates : ∀ {met names s}, Numbers met names s →
    State.last < (met ++ ms).eraseDups.length → x names s = .error .outOfStates
  agree : ∀ {f g}, (∀ name ∈ ms, f name = g name) → value f = value g

theorem number_of_some {q : State} (h : names[name]? = some q) :
    number name names s = .ok ((q, names), s) := by
  rw [number, h]
  rfl

theorem number_of_none (h : names[name]? = none) : number name names s =
    (fresh >>= fun q => pure (q, names.insert name q) : Fresh (State × Names)) s := by
  rw [number, h]

theorem meets_number (name : List Char) : Meets (number name) [name] fun f => f name := by
  constructor
  · intro met names s h hroom
    by_cases hname : name ∈ met
    · refine ⟨names, s, ?_, h.of_mem hname⟩
      rw [number_of_some (h.known name hname), placeIn, placeIn, idxOf_eraseDups_append hname]
    · have hnext : s.next < State.last := by
        rw [eraseDups_concat_of_not_mem hname, List.length_append, ← h.next_eq] at hroom
        exact hroom
      have hnumbers := h.insert hname hnext
      have hplace := hnumbers.known name (List.mem_append_right _ (List.mem_singleton_self name))
      rw [ExtTreeMap.getElem?_insert_self, Option.some.injEq] at hplace
      refine ⟨_, _, ?_, hnumbers⟩
      rw [number_of_none (h.unknown name hname), ← hplace,
        Fresh.bind_of_ok (fresh_eq_ok_iff.2 ⟨rfl, rfl, hnext⟩)]
      rfl
  · intro met names s h hroom
    have hname : name ∉ met := by
      intro hname
      rw [eraseDups_concat_of_mem hname] at hroom
      exact Nat.not_le_of_lt hroom h.room
    have hnext : ¬ s.next < State.last := by
      rw [eraseDups_concat_of_not_mem hname, List.length_append, ← h.next_eq] at hroom
      exact Nat.not_lt_of_le (Nat.le_of_lt_succ hroom)
    rw [number_of_none (h.unknown name hname)]
    exact Fresh.bind_of_error (if_neg hnext)
  · exact fun h => h name (List.mem_singleton_self name)

theorem meets_pure (a : α) : Meets (pure a) [] fun _ => a := by
  constructor
  · intro met names s h _
    rw [List.append_nil]
    exact ⟨names, s, rfl, h⟩
  · intro met names s h hroom
    rw [List.append_nil] at hroom
    exact absurd h.room (Nat.not_le_of_lt hroom)
  · exact fun _ => rfl

theorem bind_apply {x : Naming α} {f : α → Naming β} :
    (x >>= f) names s = (x names >>= fun r => f r.1 r.2) s := rfl

theorem length_eraseDups_le (l r : List (List Char)) :
    l.eraseDups.length ≤ (l ++ r).eraseDups.length :=
  (eraseDups_prefix_append l r).length_le

/-- What is met later changes no number. -/
theorem Meets.bind {x : Naming α} {f : α → Naming β} {value : (List Char → State) → α}
    {value' : α → (List Char → State) → β} (hx : Meets x ms value)
    (hf : ∀ a, Meets (f a) ms' (value' a)) :
    Meets (x >>= f) (ms ++ ms') fun g => value' (value g) g := by
  constructor
  · intro met names s h hroom
    rw [← List.append_assoc] at hroom ⊢
    obtain ⟨names₁, s₁, hok, h₁⟩ := hx.ok h ((length_eraseDups_le _ _).trans hroom)
    obtain ⟨names₂, s₂, hok', h₂⟩ := (hf _).ok h₁ hroom
    have hsame : value (placeIn (met ++ ms ++ ms')) = value (placeIn (met ++ ms)) :=
      hx.agree fun name hname => idxOf_eraseDups_append (List.mem_append_right met hname)
    refine ⟨names₂, s₂, ?_, h₂⟩
    rw [bind_apply, Fresh.bind_of_ok hok, hok', hsame]
  · intro met names s h hroom
    rw [← List.append_assoc] at hroom
    by_cases hfirst : (met ++ ms).eraseDups.length ≤ State.last
    · obtain ⟨names₁, s₁, hok, h₁⟩ := hx.ok h hfirst
      rw [bind_apply, Fresh.bind_of_ok hok]
      exact (hf _).outOfStates h₁ hroom
    · rw [bind_apply]
      exact Fresh.bind_of_error (hx.outOfStates h (Nat.lt_of_not_le hfirst))
  · intro g g' h
    have hvalue := hx.agree fun name hname => h name (List.mem_append_left ms' hname)
    show value' (value g) g = value' (value g') g'
    rw [hvalue]
    exact (hf _).agree fun name hname => h name (List.mem_append_right ms hname)

theorem meets_foldlM {f : α → β → Naming α} {ms : β → List (List Char)}
    {step : (List Char → State) → α → β → α}
    (hf : ∀ a b, Meets (f a b) (ms b) fun g => step g a b) (bs : List β) (a : α) :
    Meets (bs.foldlM f a) (bs.flatMap ms) fun g => bs.foldl (step g) a := by
  induction bs generalizing a with
  | nil => exact meets_pure a
  | cons b bs ih =>
    rw [List.foldlM_cons, List.flatMap_cons]
    exact (hf a b).bind ih

/-! ### Reading a pushdown automaton -/

theorem meets_addAcceptNamed (p : Pushdown) (name : List Char) :
    Meets (addAcceptNamed p name) [name] fun g => p.addAccept (g name) :=
  (meets_number name).bind fun q => meets_pure (p.addAccept q)

theorem meets_addMoveLine (p : Pushdown) (m : MoveLine) : Meets (addMoveLine p m)
    [m.source, m.target] fun g => p.addMove (m.toMove (g m.source) (g m.target)) :=
  (meets_number m.source).bind fun q => (meets_number m.target).bind fun r =>
    meets_pure (p.addMove (m.toMove q r))

section Read

variable {start accept moves : List Char} {lines : List (List Char)} {ls : List MoveLine}
  {p : Pushdown}

theorem foldlM_addLine (h : lines.mapM readMove? = some ls) (p : Pushdown) :
    lines.foldlM addLine p = ls.foldlM addMoveLine p := by
  induction mapM_eq_some_iff.1 h generalizing p with
  | nil => rfl
  | cons hm _ ih =>
    rw [List.foldlM_cons, List.foldlM_cons, addLine, hm]
    congr 1
    funext p
    exact ih (mapM_eq_some_iff.2 ‹_›) p

/-- All lines were read, if none of them was refused. -/
theorem exists_of_foldlM_addLine {r : (Pushdown × Names) × Supply}
    (h : lines.foldlM addLine p names s = .ok r) : ∃ ls, lines.mapM readMove? = some ls := by
  induction lines generalizing p names s with
  | nil => exact ⟨[], rfl⟩
  | cons line lines ih =>
    rw [List.foldlM_cons, bind_apply] at h
    obtain ⟨⟨p₁, names₁⟩, s₁, hline, h⟩ := Fresh.bind_eq_ok_iff.1 h
    obtain ⟨ls, hls⟩ := ih h
    cases hm : readMove? line with
    | none =>
      rw [addLine, hm] at hline
      cases hline
    | some m => exact ⟨m :: ls, by rw [List.mapM_cons, hm, hls]; rfl⟩

def mentioned (start : List Char) (accept : List (List Char)) (ls : List MoveLine) :
    List (List Char) :=
  start :: (accept ++ ls.flatMap fun m => [m.source, m.target])

/-- The automaton of some lines, with numbers for all names. -/
def assembled (g : List Char → State) (start : List Char) (accept : List (List Char))
    (ls : List MoveLine) : Pushdown :=
  (accept.foldl (fun p name => p.addAccept (g name)) (Pushdown.ofStart (g start))).addMoves
    (ls.map fun m => m.toMove (g m.source) (g m.target))

theorem meets_namedPushdown (start : List Char) (accept : List (List Char))
    (h : lines.mapM readMove? = some ls) : Meets (namedPushdown start accept lines)
      (mentioned start accept ls) fun g => assembled g start accept ls := by
  have haccept : ∀ q, Meets (accept.foldlM addAcceptNamed (Pushdown.ofStart q)) accept
      fun g => accept.foldl (fun p name => p.addAccept (g name)) (Pushdown.ofStart q) := by
    intro q
    have hmeets := meets_foldlM meets_addAcceptNamed accept (Pushdown.ofStart q)
    rwa [List.flatMap_singleton'] at hmeets
  have hlines : ∀ p, Meets (lines.foldlM addLine p) (ls.flatMap fun m => [m.source, m.target])
      fun g => p.addMoves (ls.map fun m => m.toMove (g m.source) (g m.target)) := by
    intro p
    have hmeets := meets_foldlM meets_addMoveLine ls p
    rw [← foldlM_addLine h] at hmeets
    simpa only [Pushdown.addMoves, List.foldl_map] using hmeets
  exact (meets_number start).bind fun q => (haccept q).bind fun p => hlines p

theorem readPushdown_eq_ok_iff_run : readPushdown start accept moves = .ok p ↔
    Text.trim start ≠ [] ∧ ∃ names s, namedPushdown (Text.trim start) (Text.items accept)
      (Text.contentLines moves) ∅ {} = .ok ((p, names), s) := by
  unfold readPushdown
  dsimp only
  by_cases hstart : Text.trim start = []
  · rw [if_pos hstart]
    constructor
    · intro h
      cases h
    · exact fun h => absurd hstart h.1
  · rw [if_neg hstart]
    show Supply.run {} _ = _ ↔ _
    rw [Supply.run_eq_ok_iff, and_iff_right hstart]
    show (∃ s, (namedPushdown _ _ _ ∅ >>= fun r => pure r.1 : Fresh Pushdown) {} = .ok (p, s)) ↔ _
    simp only [Fresh.bind_eq_ok_iff, Fresh.pure_eq_ok_iff]
    constructor
    · rintro ⟨s, ⟨q, names⟩, s', h, rfl, rfl⟩
      exact ⟨names, s', h⟩
    · rintro ⟨names, s, h⟩
      exact ⟨s, (p, names), s, h, rfl, rfl⟩

/-- The start, the accept entries and the lines are read if and only if each of them can be read
and there are numbers for all names. -/
theorem readPushdown_eq_ok_iff : readPushdown start accept moves = .ok p ↔
    Text.trim start ≠ [] ∧ ∃ ls, (Text.contentLines moves).mapM readMove? = some ls ∧
      (mentioned (Text.trim start) (Text.items accept) ls).eraseDups.length ≤ State.last ∧
      p = assembled (placeIn (mentioned (Text.trim start) (Text.items accept) ls))
        (Text.trim start) (Text.items accept) ls := by
  rw [readPushdown_eq_ok_iff_run]
  refine and_congr_right fun _ => ?_
  constructor
  · rintro ⟨names, s, h⟩
    have hbind := h
    rw [namedPushdown, bind_apply] at hbind
    obtain ⟨⟨q, names₁⟩, s₁, -, hrest⟩ := Fresh.bind_eq_ok_iff.1 hbind
    rw [bind_apply] at hrest
    obtain ⟨⟨p₁, names₂⟩, s₂, -, hlines⟩ := Fresh.bind_eq_ok_iff.1 hrest
    obtain ⟨ls, hls⟩ := exists_of_foldlM_addLine hlines
    have hmeets := meets_namedPushdown (Text.trim start) (Text.items accept) hls
    refine ⟨ls, hls, ?_⟩
    by_cases hroom :
        (mentioned (Text.trim start) (Text.items accept) ls).eraseDups.length ≤ State.last
    · obtain ⟨names', s', hok, -⟩ := hmeets.ok numbers_empty hroom
      rw [h] at hok
      cases hok
      exact ⟨hroom, rfl⟩
    · rw [hmeets.outOfStates numbers_empty (Nat.lt_of_not_le hroom)] at h
      cases h
  · rintro ⟨ls, hls, hroom, rfl⟩
    obtain ⟨names, s, hok, -⟩ :=
      (meets_namedPushdown (Text.trim start) (Text.items accept) hls).ok numbers_empty hroom
    exact ⟨names, s, hok⟩

end Read

end LineFormat

end FormalLanguages
