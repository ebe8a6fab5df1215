import LexAutomata.Fragment

namespace LexAutomata

structure NamedFinal where
  name : String
  node : Nat
  /-- Whether the node is a connector of several fragments. -/
  connected : Bool
  deriving DecidableEq

/-- Several fragments behind one start node. Those of one name meet in a connector, so that a name has a
single final node. -/
structure TaggedNfa where
  pool : NodePool
  start : Nat
  edges : EdgeList
  finals : List NamedFinal
  deriving DecidableEq

namespace TaggedNfa

def empty : TaggedNfa := ⟨NodePool.empty.reserve 1, 0, [], []⟩

def size (n : TaggedNfa) : Nat := n.pool.allocated

/-- Copies the fragment behind the start node. The second fragment of a name brings the connector. -/
def add (n : TaggedNfa) (f : Fragment) (name : String) : TaggedNfa :=
  let final := f.final + n.size
  let pool := n.pool.reserve f.size
  let edges := n.edges.copyFrom f.edges n.size
  match n.finals.find? fun known => known.name == name with
  | none =>
    { n with
      pool := pool
      edges := edges.addEpsilon n.start (f.start + n.size)
      finals := n.finals ++ [⟨name, final, false⟩] }
  | some known =>
    if known.connected then
      { n with
        pool := pool
        edges := (edges.addEpsilon final known.node).addEpsilon n.start (f.start + n.size) }
    else
      let connector := pool.allocated
      { n with
        pool := pool.reserve 1
        edges := ((edges.addEpsilon known.node connector).addEpsilon final connector).addEpsilon
          n.start (f.start + n.size)
        finals := n.finals.map fun k => if k.name = name then ⟨name, connector, true⟩ else k }

end TaggedNfa

end LexAutomata
