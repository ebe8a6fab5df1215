import LexAutomata.Dfa.Partition

namespace LexAutomata.Dfa

/-- Joins `label` to the transition with this target, or else adds one. -/
def addTransition (label : ByteSet) (target : Nat) : List Transition → List Transition
  | [] => [⟨label, target⟩]
  | t :: rest =>
    if t.target = target then ⟨t.label.union label, target⟩ :: rest
    else t :: addTransition label target rest

/-- The names of a merged node after one more of its nodes: the first final node gives all its names,
later ones give what is missing, unless names were told apart. -/
def mergeNames (byName : Bool) (names more : List String) : List String :=
  if names.isEmpty then more
  else if byName then names
  else more.foldl (fun acc n => if acc.contains n then acc else acc ++ [n]) names

def absorb (byName : Bool) (renumber : Nat → Nat) (merged n : DfaNode) : DfaNode where
  transitions := n.transitions.foldl
    (fun ts t => addTransition t.label (renumber t.target) ts) merged.transitions
  names := mergeNames byName merged.names n.names

/-- One node for all nodes of a block, in ascending order. -/
def mergeBlock (d : Dfa) (byName : Bool) (renumber : Nat → Nat) (block : NodeSet) : DfaNode :=
  (block.toList.filterMap d.node?).foldl (absorb byName renumber) .empty

def quotient (d : Dfa) (byName : Bool) (blocks : Partition) : Except Fault Dfa :=
  let numbers := blockNumbers d.size 0 blocks.sets
  let renumber := fun id => (numbers[id]?.join).getD 0
  ofNodes (blocks.sets.map (d.mergeBlock byName renumber)) (renumber d.start)

/-- The automaton, whether it is the one given, and the counts of pieces and passes. -/
structure Minimized where
  dfa : Dfa
  unchanged : Bool
  pieces : Nat
  passes : Nat
  deriving DecidableEq

/-- The given automaton itself comes back when no two of its nodes can be merged. -/
def minimize (d : Dfa) (byName : Bool) : Except Fault Minimized :=
  let alphabet := d.alphabet
  match d.refine alphabet.pieces (d.initialPartition byName) 0 with
  | .error f => .error f
  | .ok (blocks, passes) =>
    if d.size < blocks.size then .error .tooManyBlocks
    else if blocks.size = d.size then .ok ⟨d, true, alphabet.size, passes⟩
    else
      match d.quotient byName blocks with
      | .error f => .error f
      | .ok smaller => .ok ⟨smaller, false, alphabet.size, passes⟩

end LexAutomata.Dfa
