import LexAutomata.Fault

namespace LexAutomata

/-- The nodes `0, …, allocated - 1` are in use. -/
structure NodePool where
  allocated : Nat
  deriving DecidableEq

namespace NodePool

def empty : NodePool := ⟨0⟩

def reserve (p : NodePool) (amount : Nat) : NodePool := ⟨p.allocated + amount⟩

/-- The last of `amount` fresh numbers; there is none when nothing is asked for. -/
def allocate (p : NodePool) (amount : Nat) : Except Fault (Nat × NodePool) :=
  if amount = 0 then .error .emptyAllocation else .ok (p.allocated + amount - 1, p.reserve amount)

def deallocate (p : NodePool) : Except Fault NodePool :=
  if p.allocated = 0 then .error .nothingAllocated else .ok ⟨p.allocated - 1⟩

def last? (p : NodePool) : Option Nat :=
  if p.allocated = 0 then none else some (p.allocated - 1)

end NodePool

end LexAutomata
