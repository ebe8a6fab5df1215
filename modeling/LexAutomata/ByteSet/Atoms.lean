import LexAutomata.ByteSet.Basic

namespace LexAutomata.ByteSet

/-- Disjoint, non-empty pieces such that every inserted set is the union of the pieces it meets. -/
structure Atoms where
  pieces : List ByteSet
  deriving DecidableEq

namespace Atoms

def empty : Atoms := ⟨[]⟩

/-- Splits every piece that `s` meets into the common part and the remainder of the piece; what is
left of `s` goes on to the later pieces and becomes a piece of its own at the end. -/
def split (s : ByteSet) : List ByteSet → List ByteSet
  | [] => [s]
  | p :: ps =>
    if s = p then p :: ps
    else if s.isDisjoint p then p :: split s ps
    else
      let kept := p.diff s
      let left := s.diff p
      s.inter p :: ((if kept.isEmpty then [] else [kept]) ++
        (if left.isEmpty then ps else split left ps))

def insert (a : Atoms) (s : ByteSet) : Atoms := if s.isEmpty then a else ⟨split s a.pieces⟩

def insertAll (a : Atoms) (ss : List ByteSet) : Atoms := ss.foldl insert a

def ofList (ss : List ByteSet) : Atoms := empty.insertAll ss

/-- Separates the inside of `s` from its outside: every piece, less `s`, is inserted. -/
def carve (a : Atoms) (s : ByteSet) : Atoms := a.insertAll (a.pieces.map (·.diff s))

def size (a : Atoms) : Nat := a.pieces.length

end Atoms

end LexAutomata.ByteSet
