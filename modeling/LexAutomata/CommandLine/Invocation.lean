import LexAutomata.Compile.Basic
import LexAutomata.Output.Format

namespace LexAutomata.CommandLine

inductive Switch where
  | verbose
  | noMinimize
  | mergeFinals
  | strict
  deriving DecidableEq

inductive Setting where
  | file
  | format
  | target
  deriving DecidableEq

inductive Flag where
  | switch (s : Switch)
  | setting (s : Setting)
  | help
  | version
  deriving DecidableEq

def Flag.ofLong? : String → Option Flag
  | "file" => some (.setting .file)
  | "type" => some (.setting .format)
  | "output" => some (.setting .target)
  | "verbose" => some (.switch .verbose)
  | "no-minimize" => some (.switch .noMinimize)
  | "merge-finals" => some (.switch .mergeFinals)
  | "strict" => some (.switch .strict)
  | "help" => some .help
  | "version" => some .version
  | _ => none

def Flag.ofShort? : Char → Option Flag
  | 'f' => some (.setting .file)
  | 't' => some (.setting .format)
  | 'o' => some (.setting .target)
  | 'v' => some (.switch .verbose)
  | 'h' => some .help
  | 'V' => some .version
  | _ => none

/-- What to compile, how, and where to. -/
structure Request where
  file : String
  format : Output.Format
  /-- A file that must not exist yet; without it the standard output is written. -/
  target : Option String
  verbose : Bool
  options : Compile.Options
  deriving DecidableEq

inductive Invocation where
  | help
  | version
  | compile (r : Request)
  deriving DecidableEq

inductive UsageError where
  | unknown (word : String)
  | unexpectedValue (value : String)
  | missingValue (s : Setting)
  | invalidValue (s : Setting) (value : String)
  | repeatedSetting (s : Setting)
  | repeatedSwitch (s : Switch)
  | missingFile
  deriving DecidableEq

def Switch.name : Switch → String
  | verbose => "--verbose"
  | noMinimize => "--no-minimize"
  | mergeFinals => "--merge-finals"
  | strict => "--strict"

def Setting.name : Setting → String
  | file => "--file"
  | format => "--type"
  | target => "--output"

def UsageError.message : UsageError → String
  | unknown word => "unexpected argument " ++ Text.quoted word
  | unexpectedValue value => "unexpected value " ++ Text.quoted value
  | missingValue s => s.name ++ " needs a value"
  | invalidValue s value => "invalid value " ++ Text.quoted value ++ " for " ++ s.name
  | repeatedSetting s => s.name ++ " is given more than once"
  | repeatedSwitch s => s.name ++ " is given more than once"
  | missingFile => Setting.file.name ++ " is missing"

inductive Halt where
  | misused (e : UsageError)
  | help
  | version
  deriving DecidableEq

/-- An option whose value is a word of its own waits for it, and is settled before the next option takes
effect. So the first fault decides. -/
structure Progress where
  file : Option String := none
  format : Option Output.Format := none
  target : Option String := none
  switches : List Switch := []
  /-- The last option read, as long as it is not settled, and the word given to it. -/
  pending : Option (Setting × Option String) := none
  closed : Bool := false
  deriving DecidableEq

namespace Progress

def isSet (p : Progress) : Setting → Bool
  | .file => p.file.isSome
  | .format => p.format.isSome
  | .target => p.target.isSome

/-- A path has at least one character, and a format is named exactly. -/
def assign (p : Progress) (s : Setting) (value : String) : Except UsageError Progress :=
  if p.isSet s then .error (.repeatedSetting s)
  else
    match s with
    | .file => if value = "" then .error (.invalidValue s value) else .ok { p with file := some value }
    | .target =>
      if value = "" then .error (.invalidValue s value) else .ok { p with target := some value }
    | .format =>
      match Output.Format.ofName? value with
      | none => .error (.invalidValue s value)
      | some f => .ok { p with format := some f }

def settle (p : Progress) : Except UsageError Progress :=
  match p.pending with
  | none => .ok p
  | some (s, none) => .error (.missingValue s)
  | some (s, some value) => { p with pending := none }.assign s value

def setSwitch (p : Progress) (s : Switch) : Except UsageError Progress :=
  if p.switches.contains s then .error (.repeatedSwitch s)
  else .ok { p with switches := s :: p.switches }

def orHalt {α : Type} : Except UsageError α → Except Halt α
  | .error e => .error (.misused e)
  | .ok a => .ok a

/-- One option, with the value attached to its word if there is one. -/
def take (p : Progress) (f : Flag) (attached : Option String) : Except Halt Progress :=
  match p.settle with
  | .error e => .error (.misused e)
  | .ok p =>
    match f, attached with
    | .setting s, some value => orHalt (p.assign s value)
    | .setting s, none => .ok { p with pending := some (s, none) }
    | _, some value => .error (.misused (.unexpectedValue value))
    | .switch s, none => orHalt (p.setSwitch s)
    | .help, none => .error .help
    | .version, none => .error .version

/-- The value in the rest of a word of short options; a leading `=` does not belong to it. -/
def attachedValue : List Char → Option String
  | [] => none
  | '=' :: value => some (String.ofList value)
  | value => some (String.ofList value)

/-- Short options in one word. The first that takes a value has the rest of the word for it. -/
def takeShorts (p : Progress) : List Char → Except Halt Progress
  | [] => .ok p
  | c :: rest =>
    match Flag.ofShort? c with
    | none => .error (.misused (.unknown (String.ofList ['-', c])))
    | some (.setting s) => p.take (.setting s) (attachedValue rest)
    | some f =>
      match p.take f none with
      | .error h => .error h
      | .ok p => p.takeShorts rest

/-- A long option; a value attached to it follows the first `=`. -/
def takeLong (p : Progress) (body : List Char) : Except Halt Progress :=
  let name := String.ofList (body.takeWhile (· != '='))
  match Flag.ofLong? name with
  | none => .error (.misused (.unknown ("--" ++ name)))
  | some f =>
    p.take f
      (match body.dropWhile (· != '=') with
        | [] => none
        | _ :: value => some (String.ofList value))

/-- A word that is no option is the value that is waited for, or else one too many. -/
def takeValue (p : Progress) (word : String) : Except Halt Progress :=
  match p.pending with
  | some (s, none) => .ok { p with pending := some (s, some word) }
  | _ => .error (.misused (.unknown word))

/-- A lone hyphen is no option. Two hyphens alone declare the options over. -/
def step (p : Progress) (word : String) : Except Halt Progress :=
  if p.closed then .error (.misused (.unknown word))
  else
    match word.toList with
    | ['-', '-'] => .ok { p with closed := true }
    | '-' :: '-' :: body => p.takeLong body
    | ['-'] => p.takeValue word
    | '-' :: shorts => p.takeShorts shorts
    | _ => p.takeValue word

def run (p : Progress) : List String → Except Halt Progress
  | [] => .ok p
  | word :: rest =>
    match p.step word with
    | .error h => .error h
    | .ok p => p.run rest

/-- What to compile is the one thing that has to be said. -/
def finish (p : Progress) : Except UsageError Request :=
  match p.settle with
  | .error e => .error e
  | .ok p =>
    match p.file with
    | none => .error .missingFile
    | some file =>
      .ok
        { file := file
          format := p.format.getD .jsonTables
          target := p.target
          verbose := p.switches.contains .verbose
          options :=
            { minimize := !p.switches.contains .noMinimize
              individualFinals := !p.switches.contains .mergeFinals
              skipInvalidRules := !p.switches.contains .strict } }

end Progress

def Invocation.ofWords (words : List String) : Except UsageError Invocation :=
  match Progress.run {} words with
  | .error (.misused e) => .error e
  | .error .help => .ok .help
  | .error .version => .ok .version
  | .ok p =>
    match p.finish with
    | .error e => .error e
    | .ok r => .ok (.compile r)

end LexAutomata.CommandLine
