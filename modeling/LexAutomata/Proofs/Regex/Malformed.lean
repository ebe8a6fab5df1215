import LexAutomata.Proofs.Regex.Reading

namespace LexAutomata.Regex

open Ascii

/-- The token at the front of a row of bytes, and the bytes behind it: a class ends at the first closing
bracket, a byte code takes nothing but digits. -/
inductive Cut : List UInt8 → Token → List UInt8 → Prop where
  | bracket {inside after : List UInt8} {s : ByteSet} :
      bracketClose ∉ inside → readClass (inside ++ bracketClose :: after) = some (s, after) →
        Cut (bracketOpen :: (inside ++ bracketClose :: after)) (.atom s) after
  | code {digits after : List UInt8} {b : UInt8} :
      (∀ d ∈ digits, isDigit d = true) → byteCode (digits ++ after) = (b, after) →
        Cut (hash :: (digits ++ after)) (.atom (.singleton b)) after
  | byte {b : UInt8} (after : List UInt8) :
      b ≠ bracketOpen → b ≠ hash → Cut (b :: after) (Token.ofByte b) after

/-- The tokens cut from a row of bytes, one after the other, and the bytes behind them. -/
inductive Front : List UInt8 → List Token → List UInt8 → Prop where
  | nil (bytes : List UInt8) : Front bytes [] bytes
  | cons {bytes rest last : List UInt8} {t : Token} {ts : List Token} :
      Cut bytes t rest → Front rest ts last → Front bytes (t :: ts) last

def Token.complaint : Token → Complaint
  | .quantifier q => .nothingToRepeat q
  | _ => .unmatchedClosing

section Classes

variable {b : UInt8} {acc s : ByteSet} {bytes after : List UInt8}

theorem exists_digits (rest : List UInt8) :
    ∃ digits, rest = digits ++ (byteCode rest).2 ∧ ∀ d ∈ digits, isDigit d = true := by
  unfold byteCode
  dsimp only
  split
  · exact ⟨[],rfl,List.forall_mem_nil _⟩
  · have hfront : (rest.take 3).takeWhile isDigit <+: rest :=
      (List.takeWhile_prefix _).trans (List.take_prefix 3 rest)
    exact ⟨_,(List.prefix_iff_eq_append.mp hfront).symm,List.all_eq_true.mp List.all_takeWhile⟩

theorem exists_spelled (hb : b ≠ bracketClose) (rest : List UInt8) :
    ∃ inside, b :: rest = inside ++ (spelled b rest).2 ∧ bracketClose ∉ inside := by
  unfold spelled
  split
  · obtain ⟨digits,hsplit,hdigits⟩ := exists_digits rest
    refine ⟨b :: digits,congrArg (b :: ·) hsplit,?_⟩
    intro hmem
    rcases List.mem_cons.mp hmem with hclose | hclose
    · exact hb hclose.symm
    · exact absurd (hdigits _ hclose) (by decide)
  · exact ⟨[b],rfl,by simpa using hb.symm⟩

theorem exists_classItem (hb : b ≠ bracketClose) (rest : List UInt8) :
    ∃ inside, b :: rest = inside ++ (classItem b rest).2 ∧ bracketClose ∉ inside := by
  obtain ⟨first,hfirst,hnot⟩ := exists_spelled hb rest
  unfold classItem
  dsimp only
  split
  · rename_i d e tail htail
    split
    · rename_i hrange
      obtain ⟨second,hsecond,hnot'⟩ := exists_spelled hrange.2 tail
      refine ⟨first ++ d :: second,?_,?_⟩
      · rw [hfirst,htail,hsecond,List.append_assoc,List.cons_append]
      · have hdash : bracketClose ≠ dash := by decide
        rw [hrange.1]
        simp [hnot,hnot',hdash]
    · exact ⟨first,hfirst,hnot⟩
  · exact ⟨first,hfirst,hnot⟩

theorem exists_of_classItems (h : classItems acc bytes = some (s, after)) :
    ∃ inside, bytes = inside ++ bracketClose :: after ∧ bracketClose ∉ inside := by
  fun_induction classItems acc bytes with
  | case1 => cases h
  | case2 acc rest =>
    cases h
    exact ⟨[],rfl,List.not_mem_nil⟩
  | case3 acc b rest hb ih =>
    obtain ⟨first,hfirst,hnot⟩ := exists_classItem hb rest
    obtain ⟨inside,hinside,hnot'⟩ := ih h
    refine ⟨first ++ inside,?_,by simp [hnot,hnot']⟩
    rw [hfirst,hinside,List.append_assoc]

theorem readClass_eq_some (h : readClass bytes = some (s, after)) :
    ∃ inside, bytes = inside ++ bracketClose :: after ∧ bracketClose ∉ inside := by
  unfold readClass at h
  split at h
  · cases h
  · rename_i b rest
    split at h
    · rename_i hclose
      cases h
      exact ⟨[],by rw [hclose,List.nil_append],List.not_mem_nil⟩
    · split at h
      · rename_i hcaret
        obtain ⟨⟨t,tail⟩,hitems,heq⟩ := Option.map_eq_some_iff.mp h
        cases heq
        obtain ⟨inside,hinside,hnot⟩ := exists_of_classItems hitems
        refine ⟨caret :: inside,?_,List.not_mem_cons_of_ne_of_not_mem (by decide) hnot⟩
        rw [hcaret,hinside,List.cons_append]
      · exact exists_of_classItems h

end Classes

section Cutting

variable {bytes rest last : List UInt8} {t : Token} {ts us : List Token}

theorem Cut.of_readClass {s : ByteSet} (h : readClass bytes = some (s, rest)) :
    Cut (bracketOpen :: bytes) (.atom s) rest := by
  obtain ⟨inside,rfl,hnot⟩ := readClass_eq_some h
  exact .bracket hnot h

theorem Cut.of_byteCode (bytes : List UInt8) :
    Cut (hash :: bytes) (.atom (.singleton (byteCode bytes).1)) (byteCode bytes).2 := by
  obtain ⟨digits,hsplit,hdigits⟩ := exists_digits bytes
  generalize hcode : byteCode bytes = code at hsplit
  obtain ⟨b,after⟩ := code
  subst hsplit
  exact .code hdigits hcode

namespace Front

theorem exists_of_append (h : Front bytes (ts ++ us) last) :
    ∃ rest, Front bytes ts rest ∧ Front rest us last := by
  induction ts generalizing bytes with
  | nil => exact ⟨bytes,.nil bytes,h⟩
  | cons t ts ih =>
    cases h with
    | cons hcut hrest =>
      obtain ⟨middle,hfirst,hlast⟩ := ih hrest
      exact ⟨middle,.cons hcut hfirst,hlast⟩

/-- With nothing left behind them, the tokens are those of the whole expression. -/
theorem cuts_iff : Cuts bytes ts ↔ Front bytes ts [] := by
  constructor
  · intro h
    induction h with
    | nil => exact .nil []
    | bracket hread _ ih => exact .cons (.of_readClass hread) ih
    | code _ ih => exact .cons (.of_byteCode _) ih
    | byte hb hh _ ih => exact .cons (.byte _ hb hh) ih
  · intro h
    generalize hlast : ([] : List UInt8) = last at h
    induction h with
    | nil bytes =>
      rw [← hlast]
      exact .nil
    | @cons _ after _ _ ts hcut _ ih =>
      cases hcut with
      | bracket _ hread => exact .bracket hread (ih hlast)
      | @code digits _ b _ hcode =>
        have hrest : Cuts (byteCode (digits ++ after)).2 ts := by
          rw [hcode]
          exact ih hlast
        have hcuts := Cuts.code hrest
        rw [hcode] at hcuts
        exact hcuts
      | byte rest hb hh => exact .byte hb hh (ih hlast)

end Front

end Cutting

section Placement

variable {ts : List Token} {t : Token}

end Placement

section Stack

variable {d : Nat} {items : List Item} {ts us : List Token} {L : Language UInt8}

namespace Pending

end Pending

end Stack

section Parsing

variable {bytes last : List UInt8} {ts : List Token} {c : Complaint} {position : Nat}

end Parsing

end LexAutomata.Regex
