import LexAutomata.Compile.Basic

namespace LexAutomata.Compile

open Text (decimal)

inductive Severity where
  | debug
  | info
  | warn
  | error
  deriving DecidableEq

def Severity.name : Severity → String
  | debug => "DEBUG"
  | info => "INFO"
  | warn => "WARN"
  | error => "ERROR"

structure Record where
  severity : Severity
  text : String
  deriving DecidableEq

def skipRecord (rule : Rule) (e : Regex.Error) : Record :=
  ⟨if e.isMalformed then .warn else .error,
    "skipping rule " ++ rule.name ++ " on line " ++ decimal rule.line ++ ": " ++ e.message⟩

/-- Up to the first malformed expression, unless those are left out. -/
def ruleRecords (options : Options) : List Rule → List Record
  | [] => []
  | rule :: rest =>
    ⟨.info, "processing rule " ++ rule.name ++ " (line " ++ decimal rule.line ++ ")"⟩ ::
      match Regex.parse rule.regex with
      | .ok _ => ruleRecords options rest
      | .error e =>
        if options.skipInvalidRules then skipRecord rule e :: ruleRecords options rest else []

def buildRecords (nfa : TaggedNfa) (built : Dfa) : List Record :=
  [⟨.info, "building dfa"⟩,
   ⟨.debug, "subset construction: " ++ decimal nfa.size ++ " nfa nodes, " ++
     decimal nfa.finals.length ++ " rules, " ++ decimal built.size ++ " dfa nodes"⟩,
   ⟨.info, "built dfa with " ++ decimal built.size ++ " nodes"⟩]

def minimizeRecords (built : Dfa) (m : Dfa.Minimized) : List Record :=
  [⟨.info, "minimizing dfa with " ++ decimal built.size ++ " nodes"⟩,
   ⟨.debug, "minimization: " ++ decimal m.pieces ++ " alphabet pieces, " ++ decimal m.passes ++
     " refinement passes"⟩,
   ⟨.info,
     if m.unchanged then "dfa is already minimal"
     else "minimized dfa from " ++ decimal built.size ++ " to " ++ decimal m.dfa.size ++ " nodes"⟩]

def Compilation.records (c : Compilation) : List Record :=
  buildRecords c.nfa c.built ++
    match c.minimized with
    | none => []
    | some m => minimizeRecords c.built m

def resultLog (options : Options) (rules : List Rule) (result : Except Error Compilation) :
    List Record :=
  ruleRecords options rules ++
    match result with
    | .error _ => []
    | .ok c => c.records

def loggedRules (options : Options) (rules : List Rule) :
    Except Error Compilation × List Record :=
  let result := compileRules options rules
  (result, resultLog options rules result)

/-- The result of `compileSource`, and its records: none when the rules cannot be read. -/
def loggedSource (options : Options) (source : String) :
    Except Error Compilation × List Record :=
  match RuleFile.readRules source with
  | .error e => (.error (.rules e), [])
  | .ok rules =>
    let logged := loggedRules options rules
    (logged.1, ⟨.info, "read " ++ decimal rules.length ++ " rules"⟩ :: logged.2)

end LexAutomata.Compile
