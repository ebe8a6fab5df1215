import LexAutomata.Regex.Token
import LexAutomata.Regex.Stack
import LexAutomata.Text.Decimal
import LexAutomata.Text.Quoted

namespace LexAutomata.Regex

open Text (decimal quoted)

def Quantifier.symbol : Quantifier → String
  | optional => "?"
  | star => "*"
  | plus => "+"

inductive Complaint where
  | unclosedClass
  | unmatchedClosing
  | nothingToRepeat (q : Quantifier)
  | unclosedGroup
  | unexpectedEnd
  | other (text : String)
  deriving DecidableEq

def Complaint.message : Complaint → String
  | unclosedClass => "Unexpected set end (missing ])"
  | unmatchedClosing => "Unexpected closing brace"
  | nothingToRepeat q => "No expression to use " ++ q.symbol ++ " on"
  | unclosedGroup => "Missing closing brace"
  | unexpectedEnd => "Unexpected end of regex"
  | other text => text

inductive Cause where
  | malformed (complaint : Complaint)
  | broken (error : StackError)
  deriving DecidableEq

/-- The cause, the byte offset it was found at, and the expression. -/
structure Error where
  cause : Cause
  position : Nat
  regex : String
  deriving DecidableEq

namespace Error

def isMalformed (e : Error) : Bool :=
  match e.cause with
  | .malformed _ => true
  | .broken _ => false

def message (e : Error) : String :=
  (match e.cause with
    | .malformed c => c.message
    | .broken _ => "internal parser error") ++
  " at position " ++ decimal e.position ++ " in regex " ++ quoted e.regex

end Error

end LexAutomata.Regex
