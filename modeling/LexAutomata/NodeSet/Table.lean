import LexAutomata.NodeSet.Basic

namespace LexAutomata.NodeSet

structure Table where
  sets : List NodeSet
  deriving DecidableEq

namespace Table

def empty : Table := ⟨[]⟩

def size (t : Table) : Nat := t.sets.length

def get? (t : Table) (id : Nat) : Option NodeSet := t.sets[id]?

def find? (t : Table) (s : NodeSet) : Option Nat := t.sets.findIdx? (· == s)

def holding? (t : Table) (node : Nat) : Option Nat := t.sets.findIdx? (·.contains node)

/-- The number of an equal set, or else of a new entry. -/
def add (t : Table) (s : NodeSet) : Nat × Table :=
  match t.find? s with
  | some id => (id, t)
  | none => (t.size, ⟨t.sets ++ [s]⟩)

/-- The last set takes over the number that becomes free. -/
def remove (t : Table) (id : Nat) : Table :=
  match t.sets.getLast? with
  | none => t
  | some last => ⟨(t.sets.set id last).dropLast⟩

def remove? (t : Table) (id : Nat) : Except Fault (NodeSet × Table) :=
  match t.get? id with
  | none => .error (.unknownNodeSet id)
  | some s => .ok (s, t.remove id)

end Table

end LexAutomata.NodeSet
