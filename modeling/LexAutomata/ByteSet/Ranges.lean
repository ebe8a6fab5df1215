import LexAutomata.ByteSet.Basic
import LexAutomata.Text.Decimal

namespace LexAutomata.ByteSet

open Text (paddedDecimal)

/-- Maximal runs of consecutive bytes of an ascending list, as first and last byte. -/
def runs : List UInt8 → List (UInt8 × UInt8)
  | [] => []
  | b :: bs =>
    match runs bs with
    | [] => [(b, b)]
    | (lo, hi) :: rest =>
      if b.toNat + 1 = lo.toNat then (b, hi) :: rest else (b, b) :: (lo, hi) :: rest

def ranges (s : ByteSet) : List (UInt8 × UInt8) := runs s.toList

/-- Printable ASCII stands for itself, any other byte is `#` and three digits. -/
def byteText (b : UInt8) : String :=
  if 0x20 ≤ b ∧ b ≤ 0x7e then String.singleton (Char.ofUInt8 b) else "#" ++ paddedDecimal 3 b.toNat

def rangeText (r : UInt8 × UInt8) : String :=
  if r.1 = r.2 then byteText r.1 else byteText r.1 ++ ".." ++ byteText r.2

def display (s : ByteSet) : String := "[" ++ String.intercalate "," (s.ranges.map rangeText) ++ "]"

end LexAutomata.ByteSet
