import LexAutomata.Text.Decimal
import LexAutomata.Text.Quoted

namespace LexAutomata

open Text (decimal quotedChar)

/-- A name and a regular expression, with the line of the rule and the column of the expression. -/
structure Rule where
  name : String
  regex : String
  line : Nat
  regexColumn : Nat
  deriving DecidableEq

inductive RuleError where
  | unexpectedChar (line column : Nat) (found : Char) (expected : String)
  | unexpectedEnd (line column : Nat) (expected : String)
  | missingRegex (line column : Nat)
  deriving DecidableEq

namespace RuleError

def expectedName : String := "rule name [0-9A-Za-z_]+"

def expectedDelimiter : String := "delimiter ':'"

def line : RuleError → Nat
  | unexpectedChar l _ _ _ => l
  | unexpectedEnd l _ _ => l
  | missingRegex l _ => l

def column : RuleError → Nat
  | unexpectedChar _ c _ _ => c
  | unexpectedEnd _ c _ => c
  | missingRegex _ c => c

def reason : RuleError → String
  | unexpectedChar _ _ found expected =>
    "unexpected character " ++ quotedChar found ++ ", expected " ++ expected
  | unexpectedEnd _ _ expected => "unexpected end of file, expected " ++ expected
  | missingRegex _ _ => "missing regex"

def message (e : RuleError) : String :=
  decimal e.line ++ ":" ++ decimal e.column ++ ": " ++ e.reason

end RuleError

end LexAutomata
