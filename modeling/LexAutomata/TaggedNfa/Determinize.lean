import LexAutomata.TaggedNfa.Basic
import LexAutomata.NodeSet.Table
import LexAutomata.ByteSet.Atoms
import LexAutomata.Dfa.Basic

namespace LexAutomata.TaggedNfa

def initial (n : TaggedNfa) : NodeSet := (NodeSet.singleton n.size n.start).close n.edges

/-- The names recognised in `s`, each once, in the order of their rules. -/
def namesAt (n : TaggedNfa) (s : NodeSet) : List String :=
  ((n.finals.filter fun k => s.contains k.node).map (·.name)).eraseDups

def piecesAt (n : TaggedNfa) (s : NodeSet) : ByteSet.Atoms :=
  .ofList ((n.edges.byteMoves.filter fun m => s.contains m.1).map (·.2.1))

def image (n : TaggedNfa) (s : NodeSet) (piece : ByteSet) : NodeSet :=
  ((NodeSet.empty n.size).addImage s n.edges piece).close n.edges

/-- The transitions of `s` on these pieces, with the table in which the targets are numbered. -/
def moves (n : TaggedNfa) (s : NodeSet) (table : NodeSet.Table) :
    List ByteSet → List Transition × NodeSet.Table
  | [] => ([], table)
  | piece :: rest =>
    let entry := table.add (n.image s piece)
    let later := moves n s entry.2 rest
    (⟨piece, entry.1⟩ :: later.1, later.2)

/-- The nodes from number `id` on; each of them may add sets to the table. -/
def explore (n : TaggedNfa) : Nat → NodeSet.Table → Nat → List DfaNode
  | 0, _, _ => []
  | fuel + 1, table, id =>
    match table.get? id with
    | none => []
    | some s =>
      let out := n.moves s table (n.piecesAt s).pieces
      ⟨out.1, n.namesAt s⟩ :: explore n fuel out.2 (id + 1)

/-- No more than `2 ^ size` sets of nodes are distinct (`1 <<< size` is that number), so the exploration
ends by itself. -/
def determinize (n : TaggedNfa) : Except Fault Dfa :=
  Dfa.ofNodes (n.explore (1 <<< n.size) (NodeSet.Table.empty.add n.initial).2 0) 0

end LexAutomata.TaggedNfa
