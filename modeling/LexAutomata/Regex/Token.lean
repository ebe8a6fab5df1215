import LexAutomata.ByteSet.Basic

namespace LexAutomata.Regex

inductive Quantifier where
  | optional
  | star
  | plus
  deriving DecidableEq

inductive Token where
  /-- A byte, a byte code or a class. -/
  | atom (set : ByteSet)
  | bar
  | opening
  | closing
  | quantifier (q : Quantifier)
  deriving DecidableEq

structure Lexeme where
  position : Nat
  token : Token
  deriving DecidableEq

/-- The tokens found, and whether they make up the whole text. -/
structure Scan where
  lexemes : List Lexeme
  complete : Bool
  deriving DecidableEq

namespace Ascii

abbrev hash : UInt8 := 0x23
abbrev parenOpen : UInt8 := 0x28
abbrev parenClose : UInt8 := 0x29
abbrev asterisk : UInt8 := 0x2a
abbrev plusSign : UInt8 := 0x2b
abbrev dash : UInt8 := 0x2d
abbrev question : UInt8 := 0x3f
abbrev bracketOpen : UInt8 := 0x5b
abbrev bracketClose : UInt8 := 0x5d
abbrev caret : UInt8 := 0x5e
abbrev pipe : UInt8 := 0x7c

def isDigit (b : UInt8) : Bool := 0x30 ≤ b && b ≤ 0x39

end Ascii

open Ascii

def decimalValue (digits : List UInt8) : Nat :=
  digits.foldl (fun n d => 10 * n + (d.toNat - 0x30)) 0

/-- What follows a `#`: up to three digits that name a byte, and the bytes behind them. Without a digit,
or above 255, the `#` stands for itself and nothing else is read. -/
def byteCode (rest : List UInt8) : UInt8 × List UInt8 :=
  let digits := (rest.take 3).takeWhile isDigit
  if digits.isEmpty || decimalValue digits > 255 then (hash, rest)
  else (UInt8.ofNat (decimalValue digits), rest.drop digits.length)

/-- The byte spelled by `b` and the bytes behind it. -/
def spelled (b : UInt8) (rest : List UInt8) : UInt8 × List UInt8 :=
  if b = hash then byteCode rest else (b, rest)

theorem byteCode_length_le (rest : List UInt8) : (byteCode rest).2.length ≤ rest.length := by
  unfold byteCode
  dsimp only
  split <;> simp

theorem spelled_length_le (b : UInt8) (rest : List UInt8) :
    (spelled b rest).2.length ≤ rest.length := by
  unfold spelled
  split
  · exact byteCode_length_le rest
  · exact Nat.le_refl _

/-- One item of a class: a byte, or a range when a `-` and then anything but the end of the class
follow. A reversed range is empty. -/
def classItem (b : UInt8) (rest : List UInt8) : ByteSet × List UInt8 :=
  let first := spelled b rest
  match first.2 with
  | d :: e :: tail =>
    if d = dash ∧ e ≠ bracketClose then (.range first.1 (spelled e tail).1, (spelled e tail).2)
    else (.singleton first.1, first.2)
  | _ => (.singleton first.1, first.2)

theorem classItem_length_le (b : UInt8) (rest : List UInt8) :
    (classItem b rest).2.length ≤ rest.length := by
  have h := spelled_length_le b rest
  unfold classItem
  dsimp only
  split
  · rename_i d e tail he
    have ht := spelled_length_le e tail
    rw [he] at h
    simp only [List.length_cons] at h
    split
    · simp only
      omega
    · simp only [he,List.length_cons]
      omega
  · exact h

/-- The items up to the closing bracket, joined to `acc`, and the bytes behind it. -/
def classItems (acc : ByteSet) : List UInt8 → Option (ByteSet × List UInt8)
  | [] => none
  | b :: rest =>
    if b = bracketClose then some (acc, rest)
    else classItems (acc.union (classItem b rest).1) (classItem b rest).2
termination_by bytes => bytes.length
decreasing_by
  have := classItem_length_le b rest
  simp only [List.length_cons]
  omega

theorem classItems_length_lt {acc s : ByteSet} {bytes after : List UInt8}
    (h : classItems acc bytes = some (s, after)) : after.length < bytes.length := by
  fun_induction classItems acc bytes with
  | case1 => simp at h
  | case2 acc rest =>
    obtain ⟨rfl,rfl⟩ := Prod.mk.inj (Option.some.inj h)
    simp
  | case3 acc b rest hb ih =>
    have := classItem_length_le b rest
    have := ih h
    simp only [List.length_cons]
    omega

/-- What follows a `[`: the set of the class and the bytes behind it. A bracket that closes at once is
the empty class, a leading `^` complements. -/
def readClass : List UInt8 → Option (ByteSet × List UInt8)
  | [] => none
  | b :: rest =>
    if b = bracketClose then some (.empty, rest)
    else if b = caret then (classItems .empty rest).map fun r => (r.1.compl, r.2)
    else classItems .empty (b :: rest)

theorem readClass_length_lt {s : ByteSet} {bytes after : List UInt8}
    (h : readClass bytes = some (s, after)) : after.length < bytes.length := by
  unfold readClass at h
  split at h
  · simp at h
  · rename_i b rest
    split at h
    · obtain ⟨rfl,rfl⟩ := Prod.mk.inj (Option.some.inj h)
      simp
    · split at h
      · obtain ⟨⟨t,tail⟩,hr,he⟩ := Option.map_eq_some_iff.mp h
        obtain ⟨rfl,rfl⟩ := Prod.mk.inj he
        have := classItems_length_lt hr
        simp only [List.length_cons]
        omega
      · exact classItems_length_lt h

namespace Token

def ofByte (b : UInt8) : Token :=
  if b = pipe then .bar
  else if b = parenOpen then .opening
  else if b = parenClose then .closing
  else if b = question then .quantifier .optional
  else if b = asterisk then .quantifier .star
  else if b = plusSign then .quantifier .plus
  else .atom (.singleton b)

def scanFrom (position : Nat) : List UInt8 → Scan
  | [] => ⟨[], true⟩
  | b :: rest =>
    if b = bracketOpen then
      match h : readClass rest with
      | none => ⟨[], false⟩
      | some (s, after) =>
        let scan := scanFrom (position + (rest.length - after.length) + 1) after
        ⟨⟨position, .atom s⟩ :: scan.lexemes, scan.complete⟩
    else if b = hash then
      let code := byteCode rest
      let scan := scanFrom (position + (rest.length - code.2.length) + 1) code.2
      ⟨⟨position, .atom (.singleton code.1)⟩ :: scan.lexemes, scan.complete⟩
    else
      let scan := scanFrom (position + 1) rest
      ⟨⟨position, ofByte b⟩ :: scan.lexemes, scan.complete⟩
termination_by bytes => bytes.length
decreasing_by
  · have := readClass_length_lt h
    simp only [List.length_cons]
    omega
  · have := byteCode_length_le rest
    simp only [List.length_cons]
    omega
  · simp

def scan (bytes : List UInt8) : Scan := scanFrom 0 bytes

end Token

end LexAutomata.Regex
