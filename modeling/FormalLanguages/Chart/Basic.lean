import FormalLanguages.Grammar.Analysis

/-!
# Charts

A chart has one column for each number of tokens read. A column holds items: rules read up to a
dot, each with the column where its reading began. A column is closed by predicting the rules of
variables that come next and by advancing items over variables whose rules are complete.

An item that is complete is looked for where its reading began, which may be the column in the
making itself. Items that wait for it there may come only later. What such an item has read is
empty, and therefore a variable that derives the empty word is advanced over as soon as it is met.
-/

namespace FormalLanguages

open Std

/-- A symbol of a rule that is read with the help of a chart. -/
inductive Part where
  | terminal (name : String)
  | variable (name : String)
deriving DecidableEq, Repr

def Part.name : Part → String
  | .terminal name => name
  | .variable name => name

/-- The rule with the given number, read up to the dot, from the origin column on. -/
structure Item where
  rule : Nat
  dot : Nat
  origin : Nat
deriving DecidableEq, Repr

namespace Item

protected def compare : Item → Item → Ordering :=
  compareLex (compareOn rule) (compareLex (compareOn dot) (compareOn origin))

instance : Ord Item := ⟨Item.compare⟩

instance : TransOrd Item := inferInstanceAs
  (TransCmp (compareLex (compareOn rule) (compareLex (compareOn dot) (compareOn origin))))

instance : LawfulEqOrd Item where
  eq_of_compare {a b} h := by
    have h : Item.compare a b = .eq := h
    simp only [Item.compare, compareLex_eq_eq, compareOn, LawfulEqOrd.compare_eq_iff_eq] at h
    cases a; cases b
    simp_all

def advance (i : Item) : Item := { i with dot := i.dot + 1 }

end Item

abbrev Column := ExtTreeSet Item

/-- A grammar made ready for reading. Its start is new and has one rule, which is number zero. -/
structure Chart where
  grammar : Grammar
  rules : Array (String × List Part)
  rulesOf : ExtTreeMap String (List Nat)
  nullable : ExtTreeSet String

namespace Chart

/-- A symbol that is both a terminal and a variable is read as a terminal. -/
def part (g : Grammar) (s : String) : Part :=
  if g.isTerminal s then .terminal s else .variable s

def parts (g : Grammar) (r : Rule) : List Part := (r.filter (· ≠ epsilonSymbol)).map (part g)

def ofGrammar (g : Grammar) : Chart :=
  let g := g.augmentStart "S`"
  let rules := g.vars.flatMap fun v => (g.rules v).toList.map fun r => (v, parts g r)
  { grammar := g
    rules := rules.toArray
    rulesOf := .ofList (g.vars.map fun v =>
      (v, (rules.zipIdx.filter fun ((u, _), _) => u == v).map (·.2)))
    nullable := g.nullable }

/-- Nothing is read yet. -/
def startItem : Item := ⟨0, 0, 0⟩

/-- All that was read is a word of the language. -/
def stopItem : Item := startItem.advance

/-- What comes after the dot. -/
def next? (c : Chart) (i : Item) : Option Part := do
  let (_, parts) ← c.rules[i.rule]?
  parts[i.dot]?

theorem next?_eq_some_iff {c : Chart} {i : Item} {x : Part} :
    c.next? i = some x ↔
      ∃ v parts, c.rules[i.rule]? = some (v, parts) ∧ parts[i.dot]? = some x := by
  unfold next?
  cases c.rules[i.rule]? with
  | none => simp
  | some rule => simp [Prod.ext_iff, and_assoc]

def head? (c : Chart) (i : Item) : Option String := c.rules[i.rule]?.map (·.1)

/-- The items of a column that wait for a variable, advanced over it. -/
def waiting (c : Chart) (column : Column) (v : String) : List Item :=
  column.foldr (fun i found =>
    if c.next? i = some (.variable v) then i.advance :: found else found) []

/-- The items that an item of the column in the making brings into it. -/
def successors (c : Chart) (columns : Array Column) (column : Column) (i : Item) : List Item :=
  match c.next? i with
  | some (.terminal _) => []
  | some (.variable v) =>
    let predicted := (c.rulesOf.getD v []).map fun r => ⟨r, 0, columns.size⟩
    if v ∈ c.nullable then predicted ++ [i.advance] else predicted
  | none =>
    match c.head? i with
    | some v => c.waiting (columns[i.origin]?.getD column) v
    | none => []

/-- The number of items that begin in one and the same column. -/
def dots (c : Chart) : Nat := c.rules.foldl (fun count rule => count + rule.2.length + 1) 0

/-- The column after the given ones that has the given items and all that they bring. There are
no more items than dots in rules and columns to begin in. -/
def close (c : Chart) (columns : Array Column) (items : List Item) : Column :=
  (Search.spread .queue (c.successors columns) (c.dots * (columns.size + 1)) items).seen

/-- The items that come next for each terminal that can be read. -/
def scans (c : Chart) (column : Column) : ExtTreeMap String (List Item) :=
  column.foldr (fun i m =>
    match c.next? i with
    | some (.terminal t) => m.insert t (i.advance :: m.getD t [])
    | _ => m) ∅

theorem mem_scans {c : Chart} {column : Column} {t : String} :
    t ∈ c.scans column ↔ ∃ i ∈ column, c.next? i = some (.terminal t) := by
  simp only [scans, ExtTreeSet.foldr_eq_foldr_toList, ← ExtTreeSet.mem_toList]
  induction column.toList with
  | nil => simp
  | cons i items ih =>
    simp only [List.foldr_cons, List.mem_cons, exists_eq_or_imp, ← ih]
    split
    · next s h => simp [h]
    · next h => exact (or_iff_right (h t)).symm

theorem length_parts_le (rules : List (String × List Part)) (n : Nat) :
    n + (rules.flatMap (·.2)).length ≤
      rules.foldl (fun count rule => count + rule.2.length + 1) n := by
  induction rules generalizing n with
  | nil => simp
  | cons rule rules ih =>
    have h := ih (n + rule.2.length + 1)
    simp only [List.flatMap_cons, List.length_append, List.foldl_cons]
    omega

theorem size_scans_le (c : Chart) (column : Column) : (c.scans column).size ≤ c.dots := by
  have hsub : (c.scans column).keys ⊆ (c.rules.toList.flatMap (·.2)).map Part.name := by
    intro t ht
    obtain ⟨i, -, hi⟩ := mem_scans.1 (ExtTreeMap.mem_keys.1 ht)
    obtain ⟨v, parts, hrule, hpart⟩ := next?_eq_some_iff.1 hi
    exact List.mem_map.2 ⟨.terminal t, List.mem_flatMap.2 ⟨(v, parts),
      Array.mem_toList_iff.2 (Array.mem_of_getElem? hrule), List.mem_of_getElem? hpart⟩, rfl⟩
  have hle := ExtTreeMap.nodup_keys.length_le_of_subset hsub
  have hdots := length_parts_le c.rules.toList 0
  rw [ExtTreeMap.length_keys, List.length_map] at hle
  rw [Array.foldl_toList] at hdots
  unfold dots
  omega

def first (c : Chart) : Column := c.close #[] [startItem]

end Chart

end FormalLanguages
