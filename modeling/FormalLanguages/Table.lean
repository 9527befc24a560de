import FormalLanguages.Text.Quoted
import Std.Data.ExtTreeMap

/-!
# Tables with a default

A table gives a value for every key: the one entered for it, or else its default. Touching a key
enters the default, and an entered default is not the same as no entry.
-/

namespace FormalLanguages

open Std

structure Table (κ ν : Type) [Ord κ] where
  entries : ExtTreeMap κ ν
  default : ν

namespace Table

variable {κ ν : Type} [Ord κ] [TransOrd κ]

def empty (default : ν) : Table κ ν := ⟨∅, default⟩

/-- Of two entries for one key the later counts. -/
def ofList (default : ν) (pairs : List (κ × ν)) : Table κ ν := ⟨.ofList pairs, default⟩

def get? (t : Table κ ν) (k : κ) : Option ν := t.entries[k]?

def get (t : Table κ ν) (k : κ) : ν := t.entries.getD k t.default

def insert (t : Table κ ν) (k : κ) (v : ν) : Table κ ν := { t with entries := t.entries.insert k v }

def erase (t : Table κ ν) (k : κ) : Table κ ν := { t with entries := t.entries.erase k }

/-- Changes the value of a key and enters it. -/
def update (t : Table κ ν) (k : κ) (f : ν → ν) : Table κ ν := t.insert k (f (t.get k))

/-- Enters the value a key has already. -/
def touch (t : Table κ ν) (k : κ) : Table κ ν := t.update k id

def size (t : Table κ ν) : Nat := t.entries.size

def toList (t : Table κ ν) : List (κ × ν) := t.entries.toList

/-- The same entries; the defaults may differ. -/
def sameEntries [BEq ν] (s t : Table κ ν) : Bool := s.entries == t.entries

/-- The entries in key order between braces. -/
def render (key : κ → List Char) (value : ν → List Char) (t : Table κ ν) : List Char :=
  '\x7b' :: List.intercalate [',', ' '] (t.toList.map fun (k, v) => key k ++ ':' :: ' ' :: value v)
    ++ ['\x7d']

end Table

end FormalLanguages
