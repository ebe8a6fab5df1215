import LexAutomata.NodePool
import LexAutomata.NodeSet.Reach

namespace LexAutomata

/-- A piece of an automaton with empty moves. It owns its nodes, and takes in another piece by copying the
edges to fresh ones. -/
structure Fragment where
  pool : NodePool
  start : Nat
  final : Nat
  edges : EdgeList
  deriving DecidableEq

namespace Fragment

def size (f : Fragment) : Nat := f.pool.allocated

/-- One byte of `s`, or the empty word when `s` has none. -/
def ofSet (s : ByteSet) : Fragment where
  pool := NodePool.empty.reserve 2
  start := 0
  final := 1
  edges := if s.isEmpty then EdgeList.addEpsilon [] 0 1 else [⟨0, 1, .bytes s⟩]

def emptyMatch : Fragment := ofSet .empty

def optional (f : Fragment) : Fragment := { f with edges := f.edges.addEpsilon f.start f.final }

/-- Any number of repetitions, between two new nodes. -/
def star (f : Fragment) : Fragment where
  pool := f.pool.reserve 2
  start := f.size
  final := f.size + 1
  edges := (((f.edges.addEpsilon f.final f.start).addEpsilon f.size (f.size + 1)).addEpsilon
    f.size f.start).addEpsilon f.final (f.size + 1)

/-- At least one repetition: as `star`, without the way around. -/
def plus (f : Fragment) : Fragment where
  pool := f.pool.reserve 2
  start := f.size
  final := f.size + 1
  edges := ((f.edges.addEpsilon f.final f.start).addEpsilon f.size f.start).addEpsilon
    f.final (f.size + 1)

def concat (f g : Fragment) : Fragment where
  pool := f.pool.reserve g.size
  start := f.start
  final := g.final + f.size
  edges := (f.edges.copyFrom g.edges f.size).addEpsilon f.final (g.start + f.size)

def choice (f g : Fragment) : Fragment :=
  let entry := f.size + g.size
  { pool := (f.pool.reserve g.size).reserve 2
    start := entry
    final := entry + 1
    edges := ((((f.edges.copyFrom g.edges f.size).addEpsilon entry f.start).addEpsilon
      entry (g.start + f.size)).addEpsilon f.final (entry + 1)).addEpsilon
        (g.final + f.size) (entry + 1) }

def initial (f : Fragment) : NodeSet := (NodeSet.singleton f.size f.start).close f.edges

/-- Reads the word from a closed set of nodes and stops as soon as no node is left. -/
def acceptsFrom (f : Fragment) (current : NodeSet) : List UInt8 → Bool
  | [] => current.contains f.final
  | b :: w =>
    let next := current.step f.edges b
    if next.isEmpty then false else f.acceptsFrom (next.close f.edges) w

def accepts (f : Fragment) (w : List UInt8) : Bool := f.acceptsFrom f.initial w

end Fragment

end LexAutomata
