import LexAutomata.Output.Json
import LexAutomata.Output.Source
import LexAutomata.Output.Dot

namespace LexAutomata.Output

inductive Format where
  | jsonTables
  | sourceTables
  | dotGraph
  deriving DecidableEq

namespace Format

def name : Format → String
  | jsonTables => "json-tables"
  | sourceTables => "rust-tables"
  | dotGraph => "dot-graph"

def all : List Format := [jsonTables, sourceTables, dotGraph]

def ofName? (name : String) : Option Format := all.find? fun f => f.name == name

end Format

def render (d : Dfa) : Format → String
  | .jsonTables => renderJson d
  | .sourceTables => renderSource d
  | .dotGraph => renderDot d

/-- What the sink said, while it was written to or while the tables were made into a document. -/
inductive DeliveryError where
  | write (cause : String)
  | serialize (cause : String)
  deriving DecidableEq

def DeliveryError.message : DeliveryError → String
  | write cause => "failed to write output: " ++ cause
  | serialize cause => "failed to serialize tables: " ++ cause

structure Sink where
  capacity : Nat
  refusal : String
  deriving DecidableEq

/-- The number of bytes delivered. Within a JSON document a refusal counts against the document, at the
line break behind it against the writing. -/
def deliver (d : Dfa) (format : Format) (sink : Sink) : Except DeliveryError Nat :=
  let size := (render d format).utf8ByteSize
  if size ≤ sink.capacity then .ok size
  else if format = .jsonTables ∧ sink.capacity + 1 < size then .error (.serialize sink.refusal)
  else .error (.write sink.refusal)

end LexAutomata.Output
