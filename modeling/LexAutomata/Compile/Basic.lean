import LexAutomata.RuleFile.Reader
import LexAutomata.Regex.Parse
import LexAutomata.TaggedNfa.Determinize
import LexAutomata.Dfa.Minimize

namespace LexAutomata

namespace Compile

structure Options where
  minimize : Bool := true
  individualFinals : Bool := true
  skipInvalidRules : Bool := true
  deriving DecidableEq

inductive Error where
  | rules (e : RuleError)
  | regex (rule : String) (line : Nat) (e : Regex.Error)
  | fault (f : Fault)
  deriving DecidableEq

def Error.message : Error → String
  | rules e => "invalid rule file: " ++ e.message
  | regex rule line e =>
    "rule " ++ Text.quoted rule ++ " on line " ++ Text.decimal line ++ ": " ++ e.message
  | fault f => (f.message?).getD "index out of range"

structure Rejection where
  rule : Rule
  error : Regex.Error
  deriving DecidableEq

/-- The fragments of the rules behind one start, and the rules left out. -/
structure Gathered where
  nfa : TaggedNfa
  rejected : List Rejection
  deriving DecidableEq

def gather (options : Options) (nfa : TaggedNfa) : List Rule → Except Error Gathered
  | [] => .ok ⟨nfa, []⟩
  | rule :: rest =>
    match Regex.parse rule.regex with
    | .ok f => gather options (nfa.add f rule.name) rest
    | .error e =>
      if options.skipInvalidRules then
        match gather options nfa rest with
        | .error e => .error e
        | .ok g => .ok { g with rejected := ⟨rule, e⟩ :: g.rejected }
      else .error (.regex rule.name rule.line e)

/-- The automaton as built and, unless that was switched off, as minimized. -/
structure Compilation where
  nfa : TaggedNfa
  built : Dfa
  minimized : Option Dfa.Minimized
  rejected : List Rejection

def Compilation.dfa (c : Compilation) : Dfa :=
  match c.minimized with
  | none => c.built
  | some m => m.dfa

def compileRules (options : Options) (rules : List Rule) : Except Error Compilation :=
  match gather options .empty rules with
  | .error e => .error e
  | .ok g =>
    match g.nfa.determinize with
    | .error f => .error (.fault f)
    | .ok built =>
      if options.minimize then
        match built.minimize options.individualFinals with
        | .error f => .error (.fault f)
        | .ok m => .ok ⟨g.nfa, built, some m, g.rejected⟩
      else .ok ⟨g.nfa, built, none, g.rejected⟩

/-- An error of the rule file comes before every error of an expression. -/
def compileSource (options : Options) (source : String) : Except Error Compilation :=
  match RuleFile.readRules source with
  | .error e => .error (.rules e)
  | .ok rules => compileRules options rules

end Compile

end LexAutomata
