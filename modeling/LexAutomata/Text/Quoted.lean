import LexAutomata.Text.Unprintable
import LexAutomata.Text.GraphemeExtend

namespace LexAutomata.Text

/-- The escape for an arbitrary character: its code point in hexadecimal, between braces. -/
def codeEscape (c : Char) : List Char :=
  ['\\', 'u', '\x7b'] ++ Nat.toDigits 16 c.toNat ++ ['\x7d']

def quoteChar (mark c : Char) : List Char :=
  if c = '\x00' then ['\\', '0']
  else if c = '\t' then ['\\', 't']
  else if c = '\r' then ['\\', 'r']
  else if c = '\n' then ['\\', 'n']
  else if c = '\\' ∨ c = mark then ['\\', c]
  else if isGraphemeExtend c || isUnprintable c then codeEscape c
  else [c]

def quoted (s : String) : String :=
  "\"" ++ String.ofList (s.toList.flatMap (quoteChar '"')) ++ "\""

def quotedChar (c : Char) : String := "\x27" ++ String.ofList (quoteChar '\x27' c) ++ "\x27"

end LexAutomata.Text
