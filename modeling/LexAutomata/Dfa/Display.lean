import LexAutomata.Dfa.Basic
import LexAutomata.ByteSet.Ranges

namespace LexAutomata.Dfa

open Text (decimal)

def transitionLines (t : Transition) : List String :=
  ["    With Alpha " ++ t.label.display, "      To Node " ++ decimal t.target]

def nodeLines (start id : Nat) (n : DfaNode) : List String :=
  ("  From Node " ++ decimal id ++ (if id = start then " (START)" else "")) ::
    ((if n.isFinal then ["  FINAL: [" ++ String.intercalate "," n.names ++ "]"] else []) ++
      n.transitions.flatMap transitionLines)

def display (d : Dfa) : String :=
  String.intercalate "\n"
    ("DFA:" :: d.nodes.zipIdx.flatMap (fun n => nodeLines d.start n.2 n.1) ++ ["END OF DFA"])

end LexAutomata.Dfa
