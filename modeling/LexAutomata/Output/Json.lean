import LexAutomata.Text.Decimal
import LexAutomata.Output.Tables

namespace LexAutomata.Output

open Text (decimal)

inductive Json where
  | null
  | number (n : Nat)
  | minusOne
  | text (s : String)
  | array (items : List Json)
  | object (fields : List (String × Json))

namespace Json

def escapeChar (c : Char) : List Char :=
  if c = '"' then ['\\', '"']
  else if c = '\\' then ['\\', '\\']
  else if c = '\x08' then ['\\', 'b']
  else if c = '\x0c' then ['\\', 'f']
  else if c = '\n' then ['\\', 'n']
  else if c = '\r' then ['\\', 'r']
  else if c = '\t' then ['\\', 't']
  else if c.toNat < 0x20 then
    ['\\', 'u', '0', '0', Nat.digitChar (c.toNat / 16), Nat.digitChar (c.toNat % 16)]
  else [c]

def textBody (s : String) : String := "\"" ++ String.ofList (s.toList.flatMap escapeChar) ++ "\""

def indentation (depth : Nat) : String := String.ofList (List.replicate (2 * depth) ' ')

/-- The items between brackets, each on a line of its own; no items leave no line. -/
def bracketed (opening closing : String) (depth : Nat) (items : List String) : String :=
  if items.isEmpty then opening ++ closing
  else
    opening ++ "\n" ++
      String.intercalate ",\n" (items.map fun i => indentation (depth + 1) ++ i) ++
      "\n" ++ indentation depth ++ closing

mutual

def pretty (depth : Nat) : Json → String
  | null => "null"
  | number n => decimal n
  | minusOne => "-1"
  | text s => textBody s
  | array items => bracketed "[" "]" depth (prettyItems (depth + 1) items)
  | object fields => bracketed "\x7b" "\x7d" depth (prettyFields (depth + 1) fields)

def prettyItems (depth : Nat) : List Json → List String
  | [] => []
  | j :: rest => pretty depth j :: prettyItems depth rest

def prettyFields (depth : Nat) : List (String × Json) → List String
  | [] => []
  | (name, j) :: rest => (textBody name ++ ": " ++ pretty depth j) :: prettyFields depth rest

end

end Json

/-- A single name stands alone, several make an array. -/
def namesJson : List String → Json
  | [name] => .text name
  | names => .array (names.map .text)

/-- Names are `-1` where the target has none. -/
def rowJson (r : Row) : Json :=
  .array [.number r.label, .number r.target,
    match r.names with
    | none => .minusOne
    | some i => .number i]

def Tables.json (t : Tables) : Json :=
  .object
    [("START_NODE", .number t.start),
     ("ALPHA_SET_TABLE", .array (t.labels.map .text)),
     ("FINAL_STATE_TABLE", .array (t.names.map namesJson)),
     ("STATE_TRANSITIONS", .array (t.rows.map fun rows =>
       match rows with
       | none => .null
       | some rows => .array (rows.map rowJson)))]

def renderJson (d : Dfa) : String := (Tables.ofDfa d).json.pretty 0 ++ "\n"

end LexAutomata.Output
