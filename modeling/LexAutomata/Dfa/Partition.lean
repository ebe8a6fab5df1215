import LexAutomata.Dfa.Basic
import LexAutomata.NodeSet.Table
import LexAutomata.ByteSet.Atoms

namespace LexAutomata.Dfa

/-- A number that a split frees is taken over by the last block; the parts come at the end. -/
abbrev Partition := NodeSet.Table

section Grouping

variable {κ : Type}

def addToGroup (same : κ → κ → Bool) (bound : Nat) (key : κ) (node : Nat) :
    List (κ × NodeSet) → List (κ × NodeSet)
  | [] => [(key, .singleton bound node)]
  | (k, s) :: rest =>
    if same k key then (k, s.insert node) :: rest
    else (k, s) :: addToGroup same bound key node rest

/-- The nodes of each key, in the order in which the keys first appear. -/
def groups (same : κ → κ → Bool) (bound : Nat) (keyed : List (κ × Nat)) : List NodeSet :=
  (keyed.foldl (fun gs p => addToGroup same bound p.1 p.2 gs) []).map (·.2)

end Grouping

/-- Order and repetition of names do not matter. -/
def sameNames (a b : List String) : Bool := a.all b.contains && b.all a.contains

/-- The nodes that are not final make the first block. The final nodes follow, by their names, or all
in one block when names need not be told apart. -/
def initialPartition (d : Dfa) (byName : Bool) : Partition :=
  let ids := List.range d.size
  let others := ids.filter fun id => !d.isFinal id
  let finals := (ids.filter d.isFinal).map fun id => (d.names id, id)
  ⟨(if others.isEmpty then [] else [others.foldl NodeSet.insert (.empty d.size)]) ++
    groups (if byName then sameNames else fun _ _ => true) d.size finals⟩

def alphabet (d : Dfa) : ByteSet.Atoms :=
  .ofList (d.nodes.flatMap fun n => n.transitions.map (·.label))

/-- For every node below `bound` the number of the first block that holds it, when the blocks are
numbered from `id` on. -/
def blockNumbers (bound : Nat) : Nat → List NodeSet → Array (Option Nat)
  | _, [] => Array.replicate bound none
  | id, s :: rest =>
    s.toList.foldl (fun numbers n => numbers.setIfInBounds n (some id)) (blockNumbers bound (id + 1) rest)

def targetBlock (d : Dfa) (numbers : Array (Option Nat)) (piece : ByteSet) (id : Nat) :
    Except Fault (Option Nat) :=
  match (d.node? id).bind fun n => n.transitions.find? fun t => piece.isSubset t.label with
  | none => .ok none
  | some t =>
    match numbers[t.target]? with
    | some (some block) => .ok (some block)
    | _ => .error (.nodeInNoBlock t.target)

def targetBlocks (d : Dfa) (numbers : Array (Option Nat)) (piece : ByteSet) :
    List Nat → Except Fault (List (Option Nat × Nat))
  | [] => .ok []
  | id :: rest =>
    match targetBlock d numbers piece id with
    | .error f => .error f
    | .ok block =>
      match targetBlocks d numbers piece rest with
      | .error f => .error f
      | .ok keyed => .ok ((block, id) :: keyed)

/-- The parts of `block` whose nodes enter the same block on `piece`. -/
def refineBlock (d : Dfa) (numbers : Array (Option Nat)) (piece : ByteSet) (block : NodeSet) :
    Except Fault (List NodeSet) :=
  match targetBlocks d numbers piece block.toList with
  | .error f => .error f
  | .ok keyed => .ok (groups (· == ·) d.size keyed)

def replaceBlock (blocks : Partition) (id : Nat) (parts : List NodeSet) : Partition :=
  parts.foldl (fun t s => (t.add s).2) (blocks.remove id)

/-- Refines the blocks from number `id` on by `piece`; `numbers` are those of the blocks. A split makes
the blocks more, and there are never more of them than nodes. -/
def splitFrom (d : Dfa) (piece : ByteSet) (blocks : Partition) (numbers : Array (Option Nat))
    (id : Nat) : Except Fault Partition :=
  match _hb : blocks.get? id with
  | none => .ok blocks
  | some block =>
    if block.isEmpty then .error .emptyBlock
    else
      match refineBlock d numbers piece block with
      | .error f => .error f
      | .ok [] => .error (.lostBlock id)
      | .ok [_] => splitFrom d piece blocks numbers (id + 1)
      | .ok parts =>
        let next := replaceBlock blocks id parts
        if blocks.size < next.size ∧ next.size ≤ d.size then
          splitFrom d piece next (blockNumbers d.size 0 next.sets) id
        else .error .tooManyBlocks
termination_by (d.size - blocks.size, blocks.size - id)
decreasing_by
  · apply Prod.Lex.right
    have := (List.getElem?_eq_some_iff.mp _hb).1
    simp only [NodeSet.Table.size]
    omega
  · apply Prod.Lex.left
    show d.size - next.size < d.size - blocks.size
    omega

def refinePass (d : Dfa) : List ByteSet → Partition → Except Fault Partition
  | [], blocks => .ok blocks
  | piece :: rest, blocks =>
    match splitFrom d piece blocks (blockNumbers d.size 0 blocks.sets) 0 with
    | .error f => .error f
    | .ok blocks => refinePass d rest blocks

/-- Passes until one of them splits nothing, and their number. -/
def refine (d : Dfa) (pieces : List ByteSet) (blocks : Partition) (passes : Nat) :
    Except Fault (Partition × Nat) :=
  match refinePass d pieces blocks with
  | .error f => .error f
  | .ok next =>
    if blocks.size < next.size ∧ next.size ≤ d.size then refine d pieces next (passes + 1)
    else .ok (next, passes + 1)
termination_by d.size - blocks.size

end LexAutomata.Dfa
