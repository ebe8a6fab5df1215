import LexAutomata.NodeSet.Basic
import LexAutomata.Edge

namespace LexAutomata.NodeSet

/-- Repeats `pass` as long as it adds members. There is room for no more of them than the bound. -/
def saturate (pass : NodeSet → NodeSet) (s : NodeSet) : NodeSet :=
  let next := pass s
  if s.count < next.count ∧ next.count ≤ s.bound ∧ next.bound = s.bound then saturate pass next
  else s
termination_by s.bound - s.count
decreasing_by
  rename_i h
  show next.bound - next.count < s.bound - s.count
  omega

/-- One scan of the empty moves; a node added by one of them counts for the later ones. -/
def epsilonPass (moves : List (Nat × Nat)) (s : NodeSet) : NodeSet :=
  moves.foldl (fun s m => if s.contains m.1 then s.insert m.2 else s) s

def close (s : NodeSet) (es : EdgeList) : NodeSet := saturate (epsilonPass es.epsilons) s

/-- The closure, unless an empty move leads from it beyond the bound. -/
def close? (s : NodeSet) (es : EdgeList) : Except Fault NodeSet :=
  let closed := s.close es
  if es.epsilons.any fun m => closed.contains m.1 && decide (closed.bound ≤ m.2) then
    .error .outOfRange
  else .ok closed

def imagePass (sources : NodeSet) (piece : ByteSet) (moves : List (Nat × ByteSet × Nat))
    (s : NodeSet) : NodeSet :=
  moves.foldl
    (fun s m => if sources.contains m.1 && piece.isSubset m.2.1 then s.insert m.2.2 else s) s

/-- Adds every target of a byte move that leaves `sources` and whose set covers `piece`. -/
def addImage (s sources : NodeSet) (es : EdgeList) (piece : ByteSet) : NodeSet :=
  saturate (imagePass sources piece es.byteMoves) s

def addImage? (s sources : NodeSet) (es : EdgeList) (piece : ByteSet) : Except Fault NodeSet :=
  if es.byteMoves.any fun m =>
      sources.contains m.1 && piece.isSubset m.2.1 && decide (s.bound ≤ m.2.2) then
    .error .outOfRange
  else .ok (s.addImage sources es piece)

def step (sources : NodeSet) (es : EdgeList) (b : UInt8) : NodeSet :=
  es.byteMoves.foldl
    (fun s m => if sources.contains m.1 && m.2.1.test b then s.insert m.2.2 else s)
    (empty sources.bound)

end LexAutomata.NodeSet
