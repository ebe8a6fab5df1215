import LexAutomata.Text.Decimal

namespace LexAutomata

open Text (decimal)

/-- A demand that no answer can meet, or an internal check that never fails. Errors of rules and of
expressions are answers. -/
inductive Fault where
  /-- A node or a table entry that does not exist. -/
  | outOfRange
  | emptyAllocation
  | nothingAllocated
  | unknownNodeSet (id : Nat)
  | unknownStart (start : Nat)
  | unknownTarget (node target : Nat)
  | emptyBlock
  | lostBlock (block : Nat)
  | nodeInNoBlock (node : Nat)
  | tooManyBlocks
  deriving DecidableEq

namespace Fault

/-- A plain index out of range says nothing more. -/
def message? : Fault → Option String
  | outOfRange => none
  | emptyAllocation => some "allocation of zero nodes"
  | nothingAllocated => some "nothing allocated"
  | unknownNodeSet id => some ("no node set with id " ++ decimal id)
  | unknownStart start => some ("start node " ++ decimal start ++ " out of range")
  | unknownTarget node target =>
    some ("node " ++ decimal node ++ " has a transition to unknown node " ++ decimal target)
  | emptyBlock => some "empty block in partition"
  | lostBlock block => some ("refinement lost block " ++ decimal block)
  | nodeInNoBlock node => some ("node " ++ decimal node ++ " is in no block")
  | tooManyBlocks => some "partition has more blocks than the dfa has nodes"

end Fault

end LexAutomata
