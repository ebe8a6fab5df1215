import LexAutomata.Text.Decimal
import LexAutomata.Text.Quoted
import LexAutomata.Output.Tables

namespace LexAutomata.Output

open Text (decimal quoted)

namespace Source

def rowLine (r : Row) : String :=
  "        (" ++ decimal r.label ++ ", " ++ decimal r.target ++ ", " ++
    (match r.names with
      | none => "-1"
      | some i => decimal i) ++ "),"

def nodeLines : Option (List Row) → List String
  | none => ["    None,"]
  | some rows => "    Some(&[" :: (rows.map rowLine ++ ["    ]),"])

def namesLine (names : List String) : String :=
  "    &[" ++ String.intercalate ", " (names.map quoted) ++ "],"

def lines (t : Tables) : List String :=
  ["// Generated by re2dfa. Do not edit.",
   "",
   "pub const START_NODE: usize = " ++ decimal t.start ++ ";",
   "",
   "pub static ALPHA_SET_TABLE: [&str; " ++ decimal t.labels.length ++ "] = ["] ++
  t.labels.map (fun l => "    \"" ++ l ++ "\",") ++
  ["];",
   "",
   "pub static FINAL_STATE_TABLE: [&[&str]; " ++ decimal t.names.length ++ "] = ["] ++
  t.names.map namesLine ++
  ["];",
   "",
   "pub static STATE_TRANSITIONS: [Option<&[(usize, usize, isize)]>; " ++
     decimal t.rows.length ++ "] = ["] ++
  t.rows.flatMap nodeLines ++
  ["];"]

end Source

def renderSource (d : Dfa) : String :=
  String.join ((Source.lines (Tables.ofDfa d)).map (· ++ "\n"))

end LexAutomata.Output
