import LexAutomata.Fragment

namespace LexAutomata.Regex

inductive StackError where
  | underflow (layout : String)
  | outOfOrder (layout : String)
  deriving DecidableEq

namespace StackError

def layout : StackError → String
  | underflow l => l
  | outOfOrder l => l

def message : StackError → String
  | underflow l => "stack underflow: " ++ l
  | outOfOrder l => "stack operands out of order: " ++ l

end StackError

/-- What the stack holds: the mark of an open group, the mark of a bar, a finished fragment. -/
inductive Item where
  | opening
  | bar
  | fragment (f : Fragment)
  deriving DecidableEq

def Item.symbol : Item → String
  | opening => "("
  | bar => "|"
  | fragment _ => "R"

/-- The top comes first. -/
structure Stack where
  items : List Item
  deriving DecidableEq

namespace Stack

/-- The error and the stack as the failed call leaves it. -/
structure Failure where
  error : StackError
  left : Stack
  deriving DecidableEq

def empty : Stack := ⟨[]⟩

def size (s : Stack) : Nat := s.items.length

/-- The symbols from the bottom up. -/
def layout (s : Stack) : String :=
  "[" ++ String.join (s.items.reverse.map fun i => " " ++ i.symbol) ++ " ]"

def underflow (s : Stack) : Failure := ⟨.underflow s.layout, s⟩

def outOfOrder (s : Stack) : Failure := ⟨.outOfOrder s.layout, s⟩

def pushOpening (s : Stack) : Stack := ⟨.opening :: s.items⟩

def pushFragment (s : Stack) (f : Fragment) : Stack := ⟨.fragment f :: s.items⟩

/-- Concatenates the fragments on top, from right to left, down to the first mark. -/
def foldConcatOnto (acc : Fragment) : List Item → Except Failure (List Item)
  | [] => .error (underflow ⟨[]⟩)
  | .fragment f :: rest => foldConcatOnto (f.concat acc) rest
  | mark :: rest => .ok (.fragment acc :: mark :: rest)

/-- One fragment for those above the last mark; none stand for the empty word. -/
def foldConcat : List Item → Except Failure (List Item)
  | [] => .error (underflow ⟨[]⟩)
  | .fragment f :: rest => foldConcatOnto f rest
  | mark :: rest => .ok (.fragment .emptyMatch :: mark :: rest)

/-- Joins the alternatives, from right to left, down to the mark of the group, which goes away. -/
def foldChoiceOnto (acc : Fragment) : List Item → Except Failure (List Item)
  | [] => .error (underflow ⟨[]⟩)
  | .opening :: rest => .ok (.fragment acc :: rest)
  | .bar :: .fragment f :: rest => foldChoiceOnto (f.choice acc) rest
  | .bar :: [] => .error (underflow ⟨[]⟩)
  | .bar :: rest => .error (outOfOrder ⟨rest⟩)
  | .fragment f :: rest => .error (outOfOrder ⟨.fragment f :: rest⟩)

def foldChoice : List Item → Except Failure (List Item)
  | [] => .error (underflow ⟨[]⟩)
  | .fragment f :: rest => foldChoiceOnto f rest
  | mark :: rest => .error (outOfOrder ⟨mark :: rest⟩)

/-- Ends an alternative. -/
def pushBar (s : Stack) : Except Failure Stack :=
  match foldConcat s.items with
  | .error e => .error e
  | .ok items => .ok ⟨.bar :: items⟩

/-- Ends the innermost group: all above its mark becomes one fragment. -/
def close (s : Stack) : Except Failure Stack :=
  match foldConcat s.items with
  | .error e => .error e
  | .ok items =>
    match foldChoice items with
    | .error e => .error e
    | .ok items => .ok ⟨items⟩

def top? (s : Stack) : Option Fragment :=
  match s.items with
  | .fragment f :: _ => some f
  | _ => none

/-- Changes the fragment on top, if the top is one. -/
def modifyTop? (s : Stack) (op : Fragment → Fragment) : Option Stack :=
  match s.items with
  | .fragment f :: rest => some ⟨.fragment (op f) :: rest⟩
  | _ => none

def complete? (s : Stack) : Option Fragment :=
  match s.items with
  | [.fragment f] => some f
  | _ => none

end Stack

end LexAutomata.Regex
