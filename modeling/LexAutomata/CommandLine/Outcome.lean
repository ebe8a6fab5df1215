import LexAutomata.CommandLine.FileSystem
import LexAutomata.CommandLine.Program

namespace LexAutomata.CommandLine

structure World (σ : Type) where
  files : σ
  stdout : String := ""
  reports : List Compile.Record := []

def World.report {σ : Type} (w : World σ) (records : List Compile.Record) : World σ :=
  { w with reports := w.reports ++ records }

inductive Sink (σ : Type) where
  | stdout
  | file (fill : ByteArray → σ)

/-- A file system as the surroundings of a run. What has been opened takes all that is written to it. -/
def FileSystem.platform {σ : Type} (fs : FileSystem σ) : Platform (StateM (World σ)) (Sink σ) where
  read path := do return fs.read (← get).files path
  create path := do
    match fs.create (← get).files path with
    | .error cause => return .error cause
    | .ok fill =>
      modify fun w => { w with files := fill ByteArray.empty }
      return .ok (.file fill)
  stdout := .stdout
  write
    | .stdout, text => do
      modify fun w => { w with stdout := w.stdout ++ text }
      return .ok ()
    | .file fill, text => do
      modify fun w => { w with files := fill text.toUTF8 }
      return .ok ()
  report record := modify fun w => w.report [record]

structure Outcome (σ : Type) extends World σ where
  code : ExitCode

namespace Outcome

variable {σ : Type}

def ofRun (action : StateM (World σ) ExitCode) (s : σ) : Outcome σ :=
  let (code, w) := action.run { files := s }
  { w with code := code }

def ofWords (fs : FileSystem σ) (s : σ) (words : List String) : Outcome σ :=
  ofRun (fs.platform.run words) s

end Outcome

end LexAutomata.CommandLine
