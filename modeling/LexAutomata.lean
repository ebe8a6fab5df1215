import LexAutomata.Main
import LexAutomata.Dfa.Runner
import LexAutomata.Dfa.Display
import LexAutomata.ByteSet.Tracked
import LexAutomata.Proofs.Compile.Recognition
import LexAutomata.Proofs.Dfa.Equivalence
import LexAutomata.Proofs.Fragment.Trim
import LexAutomata.Proofs.Dfa.Canonical
import LexAutomata.Proofs.TaggedNfa.Live
import LexAutomata.Proofs.Compile.Canonical
import LexAutomata.Proofs.Compile.WellFormed
import LexAutomata.Proofs.Regex.Malformed
import LexAutomata.Proofs.RuleFile.Reading
import LexAutomata.Proofs.Output.Tables
import LexAutomata.Proofs.ByteSet.Insertions
import LexAutomata.Proofs.Dfa.Stages
import LexAutomata.Proofs.Dfa.Minimal
import LexAutomata.Proofs.TaggedNfa.Subsets
import LexAutomata.Proofs.Output.Dot
import LexAutomata.Proofs.Output.Source
import LexAutomata.Proofs.Compile.Filtering
import LexAutomata.Proofs.Compile.Export
import LexAutomata.Proofs.Dfa.Calls
import LexAutomata.Proofs.Fragment.Path
import LexAutomata.Proofs.Regex.Class
import LexAutomata.Proofs.Regex.Groups
import LexAutomata.Proofs.ByteSet.Memo
import LexAutomata.Proofs.Insertion
import LexAutomata.Proofs.Regex.Size
import LexAutomata.Proofs.CommandLine.Outcome
import LexAutomata.Proofs.NodeSet.Pieces
import LexAutomata.Proofs.Fragment.Collision
import LexAutomata.Proofs.TaggedNfa.Layout
import LexAutomata.Proofs.ByteSet.Canonical
