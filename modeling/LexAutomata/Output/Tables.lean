import LexAutomata.Dfa.Basic

namespace LexAutomata.Output

/-- A transition: the positions of its label and of the names at its target, if that is final. -/
structure Row where
  label : Nat
  target : Nat
  names : Option Nat
  deriving DecidableEq

/-- Labels and lists of names are stored once, in the order of their first use, and referred to by
position. -/
structure Tables where
  start : Nat
  /-- For every byte `1` or `0`, the byte zero first. -/
  labels : List String
  names : List (List String)
  /-- The rows of every node; none stand for a node without transitions. -/
  rows : List (Option (List Row))
  deriving DecidableEq

def intern {α : Type} [DecidableEq α] (entries : List α) (a : α) : Nat × List α :=
  match entries.findIdx? (· == a) with
  | some i => (i, entries)
  | none => (entries.length, entries ++ [a])

def membership (s : ByteSet) : String :=
  String.ofList (ByteSet.allBytes.map fun b => if s.test b then '1' else '0')

namespace Tables

structure Entries where
  labels : List String
  names : List (List String)
  deriving DecidableEq

def row (entries : Entries) (t : Transition) (names : List String) : Row × Entries :=
  let label := intern entries.labels (membership t.label)
  if names.isEmpty then (⟨label.1, t.target, none⟩, { entries with labels := label.2 })
  else
    let entry := intern entries.names names
    (⟨label.1, t.target, some entry.1⟩, ⟨label.2, entry.2⟩)

def nodeRows (d : Dfa) (entries : Entries) : List Transition → List Row × Entries
  | [] => ([], entries)
  | t :: rest =>
    let first := row entries t (d.names t.target)
    let later := nodeRows d first.2 rest
    (first.1 :: later.1, later.2)

def allRows (d : Dfa) (entries : Entries) : List DfaNode → List (Option (List Row)) × Entries
  | [] => ([], entries)
  | n :: rest =>
    let first := nodeRows d entries n.transitions
    let later := allRows d first.2 rest
    ((if n.transitions.isEmpty then none else some first.1) :: later.1, later.2)

def ofDfa (d : Dfa) : Tables :=
  let out := allRows d ⟨[], []⟩ d.nodes
  ⟨d.start, out.2.labels, out.2.names, out.1⟩

end Tables

end LexAutomata.Output
