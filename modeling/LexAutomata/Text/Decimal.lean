namespace LexAutomata.Text

def decimal (n : Nat) : String := String.ofList (Nat.toDigits 10 n)

/-- At least `width` digits. -/
def paddedDecimal (width n : Nat) : String :=
  let digits := Nat.toDigits 10 n
  String.ofList (List.replicate (width - digits.length) '0' ++ digits)

end LexAutomata.Text
