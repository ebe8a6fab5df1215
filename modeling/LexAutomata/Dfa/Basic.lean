import LexAutomata.ByteSet.Basic
import LexAutomata.Fault

namespace LexAutomata

structure Transition where
  label : ByteSet
  target : Nat
  deriving DecidableEq

structure DfaNode where
  transitions : List Transition
  names : List String
  deriving DecidableEq

namespace DfaNode

def empty : DfaNode := ⟨[], []⟩

def isFinal (n : DfaNode) : Bool := !n.names.isEmpty

def next? (n : DfaNode) (b : UInt8) : Option Nat :=
  (n.transitions.find? (·.label.test b)).map (·.target)

def Deterministic (n : DfaNode) : Prop :=
  n.transitions.Pairwise fun s t => s.label.isDisjoint t.label = true

end DfaNode

/-- Every number that an automaton mentions is one of its nodes. -/
structure Dfa where
  nodes : List DfaNode
  start : Nat
  start_lt : start < nodes.length
  target_lt : ∀ n ∈ nodes, ∀ t ∈ n.transitions, t.target < nodes.length
  deriving DecidableEq

namespace Dfa

def unknownTarget? (bound : Nat) : Nat → List DfaNode → Option (Nat × Nat)
  | _, [] => none
  | id, n :: rest =>
    match n.transitions.find? fun t => decide (bound ≤ t.target) with
    | some t => some (id, t.target)
    | none => unknownTarget? bound (id + 1) rest

theorem target_lt_of_unknownTarget? {bound id : Nat} {nodes : List DfaNode}
    (h : unknownTarget? bound id nodes = none) :
    ∀ n ∈ nodes, ∀ t ∈ n.transitions, t.target < bound := by
  induction nodes generalizing id with
  | nil => simp
  | cons n rest ih =>
    rw [unknownTarget?] at h
    split at h
    · simp at h
    · rename_i hf
      intro m hm t ht
      rcases List.mem_cons.mp hm with rfl | hm
      · have := List.find?_eq_none.mp hf t ht
        simpa using this
      · exact ih h m hm t ht

def ofNodes (nodes : List DfaNode) (start : Nat) : Except Fault Dfa :=
  if hs : start < nodes.length then
    match ht : unknownTarget? nodes.length 0 nodes with
    | some (node, target) => .error (.unknownTarget node target)
    | none => .ok ⟨nodes, start, hs, target_lt_of_unknownTarget? ht⟩
  else .error (.unknownStart start)

def size (d : Dfa) : Nat := d.nodes.length

def node? (d : Dfa) (id : Nat) : Option DfaNode := d.nodes[id]?

/-- Following a byte; there is nowhere to go from a node that does not exist. -/
def next? (d : Dfa) (id : Nat) (b : UInt8) : Option Nat := (d.node? id).bind (·.next? b)

def names (d : Dfa) (id : Nat) : List String :=
  match d.node? id with
  | none => []
  | some n => n.names

def isFinal (d : Dfa) (id : Nat) : Bool := !(d.names id).isEmpty

def transitions (d : Dfa) : List (Nat × ByteSet × Nat) :=
  d.nodes.zipIdx.flatMap fun n => n.1.transitions.map fun t => (n.2, t.label, t.target)

def Deterministic (d : Dfa) : Prop := ∀ n ∈ d.nodes, n.Deterministic

theorem ext {c d : Dfa} (hn : c.nodes = d.nodes) (hs : c.start = d.start) : c = d := by
  cases c
  cases d
  simp_all

theorem next?_lt {d : Dfa} {id target : Nat} {b : UInt8} (h : d.next? id b = some target) :
    target < d.size := by
  simp only [next?,node?,Option.bind_eq_some_iff,DfaNode.next?,Option.map_eq_some_iff] at h
  obtain ⟨n,hn,t,ht,rfl⟩ := h
  exact d.target_lt n (List.mem_of_getElem? hn) t (List.mem_of_find?_eq_some ht)

end Dfa

end LexAutomata
