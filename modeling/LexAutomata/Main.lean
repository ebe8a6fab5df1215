import LexAutomata.CommandLine.Program

namespace LexAutomata

open CommandLine

def written (action : IO Unit) : IO (Except Output.DeliveryError Unit) := do
  match ← action.toBaseIO with
  | .error e => return .error (.write (toString e))
  | .ok _ => return .ok ()

/-- The files and the standard streams of the process. A sink without a handle is the standard output. -/
def process : Platform IO (Option IO.FS.Handle) where
  read path := do
    match ← (IO.FS.readBinFile path).toBaseIO with
    | .error e => return .error (toString e)
    | .ok bytes => return .ok bytes
  create path := do
    match ← (IO.FS.Handle.mk path .writeNew).toBaseIO with
    | .error e => return .error (toString e)
    | .ok handle => return .ok (some handle)
  stdout := none
  write
    | none, text => written do
      IO.print text
      (← IO.getStdout).flush
    | some handle, text => written do
      handle.putStr text
      handle.flush
  report record := IO.eprintln ("[" ++ record.severity.name ++ "] " ++ record.text)

end LexAutomata

def main (words : List String) : IO UInt32 := do
  return (← LexAutomata.process.run words).value.toUInt32
