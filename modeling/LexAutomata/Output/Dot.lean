import LexAutomata.ByteSet.Ranges
import LexAutomata.Dfa.Basic

namespace LexAutomata.Output

open Text (decimal)

namespace Dot

def escapeChar (c : Char) : List Char :=
  if c = '"' ∨ c = '\\' then ['\\', c] else if c = '\n' then ['\\', 'n'] else [c]

def escape (s : String) : String := String.ofList (s.toList.flatMap escapeChar)

def nodeLabel (id : Nat) (n : DfaNode) : String :=
  decimal id ++ String.join (n.names.map ("\n" ++ ·))

def nodeLine (id : Nat) (n : DfaNode) : String :=
  "  " ++ decimal id ++ " [label=\"" ++ escape (nodeLabel id n) ++ "\" shape=" ++
    (if n.isFinal then "octagon" else "ellipse") ++ "];"

def edgeLine (e : Nat × ByteSet × Nat) : String :=
  "  " ++ decimal e.1 ++ " -> " ++ decimal e.2.2 ++ " [label=\"" ++ escape e.2.1.display ++ "\"];"

def lines (d : Dfa) : List String :=
  ["digraph G \x7b"] ++
  d.nodes.zipIdx.map (fun n => nodeLine n.2 n.1) ++
  d.transitions.map edgeLine ++
  ["  " ++ decimal d.size ++ " [label=\"START\" shape=doubleoctagon];",
   "  " ++ decimal d.size ++ " -> " ++ decimal d.start ++ ";",
   "\x7d"]

end Dot

def renderDot (d : Dfa) : String := String.join ((Dot.lines d).map (· ++ "\n"))

end LexAutomata.Output
