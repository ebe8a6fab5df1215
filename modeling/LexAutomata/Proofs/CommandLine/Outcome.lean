import LexAutomata.CommandLine.Outcome
import LexAutomata.Proofs.Compile.Filtering
import LexAutomata.Proofs.Compile.Recognition
import LexAutomata.Proofs.RuleFile.Reading
import LexAutomata.Proofs.Text.Encoded

namespace LexAutomata.CommandLine

open Compile

section Stages

variable {σ : Type} (fs : FileSystem σ) (w : World σ)

end Stages

namespace Outcome

variable {σ : Type}

end Outcome

/-- The path leads to a file with this text, and the file can be read. -/
def FileSystem.Holds {σ : Type} (fs : FileSystem σ) (s : σ) (path text : String) : Prop :=
  fs.read s path = .ok text.toUTF8

/-- There is a new file with this text, and what was there before is still there. -/
structure FileSystem.Gains {σ : Type} (fs : FileSystem σ) (s after : σ) (path text : String) :
    Prop where
  made : ∃ fill, fs.create s path = .ok fill ∧ after = fill text.toUTF8
  vacant : fs.place s path = .missing
  filled : fs.place after path = .file text.toUTF8
  /-- A second path to the new file led nowhere before. -/
  others : ∀ other, fs.place after other = fs.place s other ∨
    fs.place s other = .missing ∧ fs.place after other = .file text.toUTF8

/-- The exit code of a run, what it prints and what it leaves. What fails first decides. -/
inductive Ends {σ : Type} (fs : FileSystem σ) (s : σ) (r : Request) : UInt8 → String → σ → Prop where
  | unreadable : (∀ source, ¬ fs.Holds s r.file source) → Ends fs s r 1 "" s
  | uncompiled {source : String} {e : Compile.Error} :
      fs.Holds s r.file source → compileSource r.options source = .error e → Ends fs s r 2 "" s
  | unmakeable {source target : String} {c : Compilation} :
      fs.Holds s r.file source → compileSource r.options source = .ok c → r.target = some target →
        (fs.place s target ≠ .missing ∨ ∃ cause, fs.create s target = .error cause) →
          Ends fs s r 1 "" s
  | printed {source : String} {c : Compilation} :
      fs.Holds s r.file source → compileSource r.options source = .ok c → r.target = none →
        Ends fs s r 0 (Output.render c.dfa r.format) s
  | written {source target : String} {c : Compilation} {after : σ} :
      fs.Holds s r.file source → compileSource r.options source = .ok c → r.target = some target →
        fs.Gains s after target (Output.render c.dfa r.format) → Ends fs s r 0 "" after

variable {σ : Type} {fs : FileSystem σ} {s files : σ} {r : Request} {code : UInt8}
  {stdout source path target text : String}

namespace Ends

end Ends

/-- Files by their paths, in directories that are all there. -/
def FileSystem.table : FileSystem (List (String × ByteArray)) where
  place s path :=
    match s.lookup path with
    | some contents => .file contents
    | none => .missing
  read s path :=
    match s.lookup path with
    | some contents => .ok contents
    | none => .error "No such file or directory (os error 2)"
  create s path :=
    match s.lookup path with
    | some _ => .error "File exists (os error 17)"
    | none => .ok fun bytes => (path, bytes) :: s

section Letter

open RuleFile

end Letter

end LexAutomata.CommandLine
