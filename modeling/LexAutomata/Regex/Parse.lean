import LexAutomata.Regex.Error

namespace LexAutomata.Regex

def Quantifier.apply : Quantifier → Fragment → Fragment
  | optional => Fragment.optional
  | star => Fragment.star
  | plus => Fragment.plus

/-- The groups that are open, and the stack, which starts with a mark for the whole expression. -/
structure Reading where
  depth : Nat
  stack : Stack
  deriving DecidableEq

namespace Reading

def start : Reading := ⟨0, Stack.empty.pushOpening⟩

def step (r : Reading) : Token → Except Cause Reading
  | .atom s => .ok { r with stack := r.stack.pushFragment (.ofSet s) }
  | .opening => .ok ⟨r.depth + 1, r.stack.pushOpening⟩
  | .bar =>
    match r.stack.pushBar with
    | .error f => .error (.broken f.error)
    | .ok stack => .ok { r with stack := stack }
  | .closing =>
    if r.depth = 0 then .error (.malformed .unmatchedClosing)
    else
      match r.stack.close with
      | .error f => .error (.broken f.error)
      | .ok stack => .ok ⟨r.depth - 1, stack⟩
  | .quantifier q =>
    match r.stack.modifyTop? q.apply with
    | none => .error (.malformed (.nothingToRepeat q))
    | some stack => .ok { r with stack := stack }

/-- The first failing token gives its offset to the error. -/
def run (r : Reading) : List Lexeme → Except (Cause × Nat) Reading
  | [] => .ok r
  | x :: xs =>
    match r.step x.token with
    | .error c => .error (c, x.position)
    | .ok r => r.run xs

def finish (r : Reading) : Except Cause Fragment :=
  if r.depth > 0 then .error (.malformed .unclosedGroup)
  else
    match r.stack.close with
    | .error f => .error (.broken f.error)
    | .ok stack =>
      match stack.complete? with
      | none => .error (.malformed .unexpectedEnd)
      | some f => .ok f

end Reading

/-- A class that is never closed is reported once the tokens before it have run. -/
def parseBytes (bytes : List UInt8) : Except (Cause × Nat) Fragment :=
  let scan := Token.scan bytes
  match Reading.start.run scan.lexemes with
  | .error e => .error e
  | .ok r =>
    if scan.complete then
      match r.finish with
      | .error c => .error (c, bytes.length)
      | .ok f => .ok f
    else .error (.malformed .unclosedClass, bytes.length)

def parse (text : String) : Except Error Fragment :=
  match parseBytes text.toUTF8.toList with
  | .error (cause, position) => .error ⟨cause, position, text⟩
  | .ok f => .ok f

end LexAutomata.Regex
