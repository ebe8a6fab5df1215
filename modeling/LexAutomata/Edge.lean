import LexAutomata.ByteSet.Basic

namespace LexAutomata

/-- What an edge consumes: nothing, or one byte of a set. -/
inductive Label where
  | epsilon
  | bytes (set : ByteSet)
  deriving DecidableEq

namespace Label

/-- Two empty moves collide, and so do two byte moves on a common byte. -/
def collides : Label → Label → Bool
  | epsilon, epsilon => true
  | bytes s, bytes t => !s.isDisjoint t
  | _, _ => false

end Label

structure Edge where
  source : Nat
  target : Nat
  label : Label
  deriving DecidableEq

namespace Edge

def rebase (e : Edge) (offset : Nat) : Edge :=
  { e with source := e.source + offset, target := e.target + offset }

def collides (e f : Edge) : Bool :=
  e.source == f.source && e.target == f.target && e.label.collides f.label

end Edge

abbrev EdgeList := List Edge

namespace EdgeList

def push (es : EdgeList) (e : Edge) : EdgeList := es ++ [e]

def isColliding (es : EdgeList) (e : Edge) : Bool := es.any e.collides

/-- Whether the edge was added, and the list after it. -/
def insertUnique (es : EdgeList) (e : Edge) : Bool × EdgeList :=
  if es.isColliding e then (false, es) else (true, es.push e)

def copyFrom (es fs : EdgeList) (offset : Nat) : EdgeList := es ++ fs.map (·.rebase offset)

def addEpsilon (es : EdgeList) (source target : Nat) : EdgeList :=
  (es.insertUnique ⟨source, target, .epsilon⟩).2

def epsilons (es : EdgeList) : List (Nat × Nat) :=
  es.filterMap fun e =>
    match e.label with
    | .epsilon => some (e.source, e.target)
    | .bytes _ => none

def byteMoves (es : EdgeList) : List (Nat × ByteSet × Nat) :=
  es.filterMap fun e =>
    match e.label with
    | .epsilon => none
    | .bytes s => some (e.source, s, e.target)

theorem mem_epsilons {es : EdgeList} {a b : Nat} :
    (a, b) ∈ es.epsilons ↔ ⟨a, b, .epsilon⟩ ∈ es := by
  simp only [epsilons,List.mem_filterMap]
  constructor
  · rintro ⟨⟨x,y,l⟩,he,h⟩
    cases l <;> simp_all
  · intro h
    exact ⟨_,h,rfl⟩

theorem mem_byteMoves {es : EdgeList} {a b : Nat} {s : ByteSet} :
    (a, s, b) ∈ es.byteMoves ↔ ⟨a, b, .bytes s⟩ ∈ es := by
  simp only [byteMoves,List.mem_filterMap]
  constructor
  · rintro ⟨⟨x,y,l⟩,he,h⟩
    cases l <;> simp_all
  · intro h
    exact ⟨_,h,rfl⟩

end EdgeList

end LexAutomata
