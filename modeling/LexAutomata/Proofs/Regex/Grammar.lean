import LexAutomata.Regex.Token
import LexAutomata.Proofs.Fragment.Language

namespace LexAutomata.Regex

open Computability

def Quantifier.language : Quantifier → Language UInt8 → Language UInt8
  | optional, L => L + 1
  | star, L => L∗
  | plus, L => L * L∗

/-- What a row of tokens can be derived as: alternatives with bars between them, items one after the
other, an atom with its quantifiers, a set or a group. -/
inductive Phrase where
  | choice
  | sequence
  | item
  | atom

inductive Derives : Phrase → List Token → Language UInt8 → Prop where
  | lone {ts : List Token} {L : Language UInt8} : Derives .sequence ts L → Derives .choice ts L
  | bar {ts us : List Token} {L M : Language UInt8} :
      Derives .sequence ts L → Derives .choice us M → Derives .choice (ts ++ .bar :: us) (L + M)
  | empty : Derives .sequence [] 1
  | cons {ts us : List Token} {L M : Language UInt8} :
      Derives .item ts L → Derives .sequence us M → Derives .sequence (ts ++ us) (L * M)
  | plain {ts : List Token} {L : Language UInt8} : Derives .atom ts L → Derives .item ts L
  | repeated {ts : List Token} {L : Language UInt8} (q : Quantifier) :
      Derives .item ts L → Derives .item (ts ++ [.quantifier q]) (q.language L)
  | set (s : ByteSet) : Derives .atom [.atom s] s.language
  | group {ts : List Token} {L : Language UInt8} :
      Derives .choice ts L → Derives .atom (.opening :: (ts ++ [.closing])) L

open Ascii in
/-- The tokens of a row of bytes: a class up to its end, a byte code with the digits it takes, any other
byte by itself. -/
inductive Cuts : List UInt8 → List Token → Prop where
  | nil : Cuts [] []
  | bracket {rest after : List UInt8} {s : ByteSet} {ts : List Token} :
      readClass rest = some (s, after) → Cuts after ts → Cuts (bracketOpen :: rest) (.atom s :: ts)
  | code {rest : List UInt8} {ts : List Token} : Cuts (byteCode rest).2 ts →
      Cuts (hash :: rest) (.atom (.singleton (byteCode rest).1) :: ts)
  | byte {b : UInt8} {rest : List UInt8} {ts : List Token} :
      b ≠ bracketOpen → b ≠ hash → Cuts rest ts → Cuts (b :: rest) (Token.ofByte b :: ts)

def Denotes (bytes : List UInt8) (L : Language UInt8) : Prop :=
  ∃ ts, Cuts bytes ts ∧ Derives .choice ts L

namespace Token

open Ascii

section Scans

variable {position : Nat} {rest after : List UInt8} {s : ByteSet}

theorem scanFrom_unclosed (h : readClass rest = none) :
    scanFrom position (bracketOpen :: rest) = ⟨[], false⟩ := by
  rw [scanFrom,if_pos rfl]
  split
  · rfl
  · rename_i hs
    rw [h] at hs
    cases hs

theorem scanFrom_class (h : readClass rest = some (s, after)) :
    scanFrom position (bracketOpen :: rest) =
      ⟨⟨position, .atom s⟩ ::
        (scanFrom (position + (rest.length - after.length) + 1) after).lexemes,
        (scanFrom (position + (rest.length - after.length) + 1) after).complete⟩ := by
  rw [scanFrom,if_pos rfl]
  split
  · rename_i hs
    rw [h] at hs
    cases hs
  · rename_i hs
    rw [h] at hs
    cases hs
    rfl

theorem scanFrom_code (position : Nat) (rest : List UInt8) :
    scanFrom position (hash :: rest) =
      ⟨⟨position, .atom (.singleton (byteCode rest).1)⟩ ::
        (scanFrom (position + (rest.length - (byteCode rest).2.length) + 1) (byteCode rest).2).lexemes,
        (scanFrom (position + (rest.length - (byteCode rest).2.length) + 1)
          (byteCode rest).2).complete⟩ := by
  rw [scanFrom,if_neg (by decide),if_pos rfl]

theorem scanFrom_byte {b : UInt8} (hb : b ≠ bracketOpen) (hh : b ≠ hash) :
    scanFrom position (b :: rest) =
      ⟨⟨position, ofByte b⟩ :: (scanFrom (position + 1) rest).lexemes,
        (scanFrom (position + 1) rest).complete⟩ := by
  rw [scanFrom,if_neg hb,if_neg hh]

end Scans

theorem cuts_scanFrom {position : Nat} {bytes : List UInt8}
    (h : (scanFrom position bytes).complete = true) :
    Cuts bytes ((scanFrom position bytes).lexemes.map (·.token)) := by
  induction position, bytes using scanFrom.induct with
  | case1 position =>
    rw [scanFrom]
    exact .nil
  | case2 position rest hread =>
    rw [scanFrom_unclosed hread] at h
    cases h
  | case3 position rest s after hread ih =>
    rw [scanFrom_class hread] at h ⊢
    exact .bracket hread (ih h)
  | case4 position rest code _ ih =>
    rw [scanFrom_code] at h ⊢
    exact .code (ih h)
  | case5 position b rest hb hh ih =>
    rw [scanFrom_byte hb hh] at h ⊢
    exact .byte hb hh (ih h)

theorem cuts_iff {position : Nat} {bytes : List UInt8} {ts : List Token} :
    Cuts bytes ts ↔ (scanFrom position bytes).complete = true ∧
      (scanFrom position bytes).lexemes.map (·.token) = ts := by
  constructor
  · intro h
    induction h generalizing position with
    | nil =>
      rw [scanFrom]
      exact ⟨rfl,rfl⟩
    | @bracket rest after s ts hread _ ih =>
      rw [scanFrom_class hread]
      exact ⟨ih.1,congrArg (Token.atom s :: ·) ih.2⟩
    | @code rest ts _ ih =>
      rw [scanFrom_code]
      exact ⟨ih.1,congrArg (Token.atom (.singleton (byteCode rest).1) :: ·) ih.2⟩
    | @byte b rest ts hb hh _ ih =>
      rw [scanFrom_byte hb hh]
      exact ⟨ih.1,congrArg (ofByte b :: ·) ih.2⟩
  · intro hfrom
    obtain ⟨hcomplete,hts⟩ := hfrom
    rw [← hts]
    exact cuts_scanFrom hcomplete

end Token

end LexAutomata.Regex
