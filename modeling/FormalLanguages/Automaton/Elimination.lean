import FormalLanguages.Automaton.Dfa
import FormalLanguages.Regex.Written

/-!
# State elimination

A generalized automaton has at most one edge from one state to another, labelled with a regular
expression in its written form. An edge that is added beside another one is united with it. When
a state is eliminated, every path of two edges through it becomes one edge, with the star of its
loop in the middle. Once only the start and the accept state are left, the edge between them holds
an expression for the whole language.
-/

namespace FormalLanguages

open Std Regex

/-- An edge with its two ends and its label. -/
abbrev Edge := (State × State) × List Char

/-- The edges in the order in which they were added. -/
structure Edges where
  toList : List Edge
  /-- There is at most one edge from one state to another. -/
  nodup : (toList.map Prod.fst).Nodup
deriving DecidableEq

namespace Edges

/-- The label of a parallel edge is united with the new one; otherwise the new edge comes last. -/
def unite (ends : State × State) (label : List Char) : List Edge → List Edge
  | [] => [(ends, label)]
  | e :: edges =>
    if e.1 = ends then (ends, Written.union e.2 label) :: edges else e :: unite ends label edges

theorem map_fst_unite (ends : State × State) (label : List Char) (edges : List Edge) :
    (unite ends label edges).map Prod.fst = if ends ∈ edges.map Prod.fst then edges.map Prod.fst
      else edges.map Prod.fst ++ [ends] := by
  induction edges with
  | nil => rfl
  | cons e edges ih =>
    by_cases he : e.1 = ends
    · simp [unite, he]
    · rw [unite, if_neg he, List.map_cons, List.map_cons, ih]
      simp only [List.mem_cons, Ne.symm he, false_or]
      split <;> rfl

theorem nodup_unite {ends : State × State} {label : List Char} {edges : List Edge}
    (h : (edges.map Prod.fst).Nodup) : ((unite ends label edges).map Prod.fst).Nodup := by
  rw [map_fst_unite]
  split
  · exact h
  · next hnew =>
    refine List.nodup_append.2 ⟨h, List.pairwise_singleton .., fun a ha b hb heq => ?_⟩
    rw [heq, List.mem_singleton.1 hb] at ha
    exact hnew ha

instance : EmptyCollection Edges := ⟨⟨[], List.nodup_nil⟩⟩

/-- The label between two states. -/
instance : GetElem? Edges (State × State) (List Char)
    fun edges ends => (edges.toList.lookup ends).isSome where
  getElem edges ends h := (edges.toList.lookup ends).get h
  getElem? edges ends := edges.toList.lookup ends

/-- Adds an edge, unless there is a parallel one to be united with it. -/
def add (edges : Edges) (ends : State × State) (label : List Char) : Edges :=
  ⟨unite ends label edges.toList, nodup_unite edges.nodup⟩

/-- The edges that neither begin nor end at the state. -/
def without (edges : Edges) (q : State) : Edges :=
  ⟨edges.toList.filter fun e => e.1.1 ≠ q ∧ e.1.2 ≠ q,
    edges.nodup.sublist (List.filter_sublist.map Prod.fst)⟩

def addAll (edges : Edges) (new : List Edge) : Edges :=
  new.foldl (fun edges (ends, label) => edges.add ends label) edges

end Edges

structure Gnfa where
  states : StateSet
  start : State
  accept : State
  edges : Edges
deriving DecidableEq

namespace Gnfa

/-- The edges out of a state of a deterministic automaton, and one to the accept state from each
state that accepts. -/
def edgesFrom (d : Dfa) (accept : State) (q : State) : List Edge :=
  d.alphabet.toList.filterMap (fun c => (d.next? q c).map fun r => ((q, r), [c])) ++
    if q ∈ d.accept then [((q, accept), Written.empty)] else []

/-- The two states above all others become the start and the accept state. -/
def ofDfa (d : Dfa) : Except Error Gnfa :=
  let top := (StateSet.greatest? d.states).getD 0
  let start := top + 1
  let accept := top + 2
  if accept ≤ State.last then
    .ok {
      states := (d.states.insert start).insert accept
      start, accept
      edges := Edges.addAll ∅
        (((start, d.start), Written.empty) :: d.states.toList.flatMap (edgesFrom d accept)) }
  else .error .outOfStates

/-- The edges that come from elsewhere and end at `q`, as their sources and labels. -/
def incoming (g : Gnfa) (q : State) : List (State × List Char) :=
  g.edges.toList.filterMap fun ((p, r), a) => if r = q ∧ p ≠ q then some (p, a) else none

/-- The edges that start at `q` and lead elsewhere, as their targets and labels. -/
def outgoing (g : Gnfa) (q : State) : List (State × List Char) :=
  g.edges.toList.filterMap fun ((p, r), a) => if p = q ∧ r ≠ q then some (r, a) else none

/-- The label of a path of two edges through a state with the given loop. -/
def detour (loop : Option (List Char)) (a b : List Char) : List Char :=
  match loop with
  | some x => Written.concat (Written.concat a (Written.star x)) b
  | none => Written.concat a b

def eliminate (g : Gnfa) (q : State) : Gnfa :=
  { g with
    states := g.states.erase q
    edges := Edges.addAll (g.edges.without q)
      ((g.incoming q).flatMap fun (p, a) => (g.outgoing q).map fun (r, b) =>
        ((p, r), detour g.edges[(q, q)]? a b)) }

/-- Eliminates all states in ascending order; there is no expression for the empty language. -/
def toRegex? (g : Gnfa) : Option (List Char) :=
  let inner := g.states.toList.filter fun q => q ≠ g.start ∧ q ≠ g.accept
  (inner.foldl eliminate g).edges[(g.start, g.accept)]?

end Gnfa

def Dfa.toRegex? (d : Dfa) : Except Error (Option (List Char)) := do
  return (← Gnfa.ofDfa d).toRegex?

end FormalLanguages
