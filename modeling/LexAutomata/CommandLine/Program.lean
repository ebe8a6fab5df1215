import LexAutomata.CommandLine.Invocation
import LexAutomata.Compile.Log

namespace LexAutomata.CommandLine

open Compile (Record Severity)

inductive ExitCode where
  | success
  /-- The command line is wrong, or a file cannot be read, made or written. -/
  | unusable
  | invalidRules
  | fault
  deriving DecidableEq

def ExitCode.value : ExitCode → UInt8
  | success => 0
  | unusable => 1
  | invalidRules => 2
  | fault => 101

def ExitCode.ofError : Compile.Error → ExitCode
  | .rules _ => invalidRules
  | .regex _ _ _ => invalidRules
  | .fault _ => fault

def versionText : String := "re2dfa 0.1.0\n"

def helpText : String :=
  String.join ([
    "Compile lexer rules into a minimized DFA",
    "",
    "Usage: re2dfa [OPTIONS] --file <FILE>",
    "",
    "Options:",
    "  -f, --file <FILE>      Rule file with one NAME:REGEX definition per line",
    "  -t, --type <TYPE>      json-tables (the default), rust-tables or dot-graph",
    "  -o, --output <OUTPUT>  Write to this file instead of stdout, never to an existing one",
    "  -v, --verbose          Log progress",
    "      --no-minimize      Skip DFA minimization",
    "      --merge-finals     Let final nodes of different rules merge during minimization",
    "      --strict           Fail on the first rule whose regex does not parse",
    "  -h, --help             Print help",
    "  -V, --version          Print version"].map (· ++ "\n"))

/-- Warnings and errors are always shown, the progress on request. -/
def isShown (verbose : Bool) : Severity → Bool
  | .debug => false
  | .info => verbose
  | .warn => true
  | .error => true

def shown (verbose : Bool) (records : List Record) : List Record :=
  records.filter fun record => isShown verbose record.severity

def skippedRecords (c : Compile.Compilation) : List Record :=
  if c.rejected.isEmpty then []
  else [⟨.info, Text.decimal c.rejected.length ++ " rules were skipped"⟩]

def decodeText (bytes : ByteArray) : Except String String :=
  match String.fromUTF8? bytes with
  | none => .error "stream did not contain valid UTF-8"
  | some text => .ok text

/-- What the program asks of its surroundings, whatever they are. -/
structure Platform (m : Type → Type) (sink : Type) where
  read : String → m (Except String ByteArray)
  /-- Opens a new file; where something is already, that is an error. -/
  create : String → m (Except String sink)
  stdout : sink
  /-- Writes the whole text, and nothing is written to the sink after it. -/
  write : sink → String → m (Except Output.DeliveryError Unit)
  report : Record → m Unit

namespace Platform

variable {m : Type → Type} {sink : Type} [Monad m] (p : Platform m sink)

def tell (verbose : Bool) (records : List Record) : m Unit :=
  (shown verbose records).forM p.report

def fail (code : ExitCode) (text : String) : m ExitCode := do
  p.report ⟨.error, text⟩
  return code

def readText (path : String) : m (Except String String) := do
  return (← p.read path).bind decodeText

def openTarget : Option String → m (Except String sink)
  | none => return .ok p.stdout
  | some path => p.create path

/-- The last two stages. Nothing is opened before there is something to write. -/
def deliver (r : Request) (d : Dfa) : m ExitCode := do
  match ← p.openTarget r.target with
  | .error cause => p.fail .unusable ("cannot open " ++ r.target.getD "stdout" ++ ": " ++ cause)
  | .ok sink =>
    p.tell r.verbose [⟨.info, "writing output"⟩]
    match ← p.write sink (Output.render d r.format) with
    | .error e => p.fail .unusable e.message
    | .ok _ => return .success

def compile (r : Request) : m ExitCode := do
  match ← p.readText r.file with
  | .error cause => p.fail .unusable ("cannot read " ++ r.file ++ ": " ++ cause)
  | .ok source =>
    let (result, log) := Compile.loggedSource r.options source
    p.tell r.verbose log
    match result with
    | .error e => p.fail (.ofError e) (r.file ++ ": " ++ e.message)
    | .ok c =>
      p.tell r.verbose (skippedRecords c)
      p.deliver r c.dfa

def print (text : String) : m ExitCode := do
  let _ ← p.write p.stdout text
  return .success

def run (words : List String) : m ExitCode := do
  match Invocation.ofWords words with
  | .error e => p.fail .unusable e.message
  | .ok .help => p.print helpText
  | .ok .version => p.print versionText
  | .ok (.compile r) => p.compile r

end Platform

end LexAutomata.CommandLine
