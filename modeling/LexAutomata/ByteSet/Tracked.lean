import LexAutomata.ByteSet.Basic

namespace LexAutomata.ByteSet

inductive Emptiness where
  | empty
  | nonEmpty
  | unknown
  deriving DecidableEq

/-- Growing operations know whether the set is empty, shrinking ones forget it, and a question writes the
answer back. -/
structure Tracked where
  set : ByteSet
  memo : Emptiness

namespace Tracked

def empty : Tracked := ⟨ByteSet.empty, .empty⟩

def test (s : Tracked) (b : UInt8) : Bool := s.set.test b

/-- The answer, and the set with the answer remembered. -/
def isEmpty (s : Tracked) : Bool × Tracked :=
  match s.memo with
  | .empty => (true, s)
  | .nonEmpty => (false, s)
  | .unknown =>
    if s.set.isEmpty then (true, { s with memo := .empty }) else (false, { s with memo := .nonEmpty })

def insert (s : Tracked) (b : UInt8) : Tracked := ⟨s.set.insert b, .nonEmpty⟩

/-- Nothing is forgotten when the byte was absent. -/
def erase (s : Tracked) (b : UInt8) : Tracked :=
  if s.set.test b then ⟨s.set.erase b, .unknown⟩ else s

/-- Reversed bounds are refused. -/
def insertRange (s : Tracked) (lo hi : UInt8) : Bool × Tracked :=
  if lo ≤ hi then (true, ⟨s.set.union (range lo hi), .nonEmpty⟩) else (false, s)

def ofByte (b : UInt8) : Tracked := empty.insert b

def ofRange (lo hi : UInt8) : Tracked := (empty.insertRange lo hi).2

def ofList (bs : List UInt8) : Tracked := bs.foldl insert empty

def union (s t : Tracked) : Tracked := ⟨s.set.union t.set, .unknown⟩

def inter (s t : Tracked) : Tracked := ⟨s.set.inter t.set, .unknown⟩

def diff (s t : Tracked) : Tracked := ⟨s.set.diff t.set, .unknown⟩

/-- The complement, and the set itself, which was asked whether it is empty: the complement of an
empty set is known not to be. -/
def compl (s : Tracked) : Tracked × Tracked :=
  let (wasEmpty, asked) := s.isEmpty
  (⟨s.set.compl, if wasEmpty then .nonEmpty else .unknown⟩, asked)

def full : Tracked := empty.compl.1

/-- The memo never contradicts the set. -/
def Sound (s : Tracked) : Prop :=
  (s.memo = .empty → s.set.isEmpty = true) ∧ (s.memo = .nonEmpty → s.set.isEmpty = false)

theorem isEmpty_set (s : Tracked) : s.isEmpty.2.set = s.set := by
  rw [isEmpty]
  split <;> try rfl
  split <;> rfl

theorem compl_set (s : Tracked) : s.compl.1.set = s.set.compl ∧ s.compl.2.set = s.set :=
  ⟨rfl, isEmpty_set s⟩

end Tracked

end LexAutomata.ByteSet
