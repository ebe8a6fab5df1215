import LexAutomata.Proofs.Regex.Reading
import LexAutomata.Proofs.Text.Encoded

namespace LexAutomata.Regex

open Ascii

def digit (d : Fin 10) : UInt8 := UInt8.ofNat (0x30 + d)

/-- A byte as it is spelled in a class: by a code of three digits, or by itself where it is ASCII and means
nothing else. -/
inductive Spelling where
  | code (hundreds tens units : Fin 10) (fits : 100 * hundreds.val + 10 * tens.val + units.val ≤ 255)
  | raw (b : UInt8) (ascii : b < 0x80) (plain : b ≠ bracketClose ∧ b ≠ hash ∧ b ≠ dash)

def Spelling.byte : Spelling → UInt8
  | code hundreds tens units _ => UInt8.ofNat (100 * hundreds.val + 10 * tens.val + units.val)
  | raw b _ _ => b

def Spelling.bytes : Spelling → List UInt8
  | code hundreds tens units _ => [hash, digit hundreds, digit tens, digit units]
  | raw b _ _ => [b]

inductive ClassItem where
  | single (s : Spelling)
  | range (first last : Spelling)

namespace ClassItem

def bytes : ClassItem → List UInt8
  | single s => s.bytes
  | range first last => first.bytes ++ dash :: last.bytes

/-- A reversed range covers nothing. -/
def Covers (x : UInt8) : ClassItem → Prop
  | single s => x = s.byte
  | range first last => first.byte ≤ x ∧ x ≤ last.byte

def set : ClassItem → ByteSet
  | single s => .singleton s.byte
  | range first last => .range first.byte last.byte

theorem test_set {i : ClassItem} {x : UInt8} : i.set.test x = true ↔ i.Covers x := by
  cases i with
  | single s => simp [set,Covers]
  | range first last => simp [set,Covers]

end ClassItem

/-- A class as it is written. Without the caret that complements it, its first byte is no caret. -/
structure ClassText where
  negated : Bool
  items : List ClassItem
  dashed : Bool
  no_caret : negated = false → (items.flatMap ClassItem.bytes).head? ≠ some caret

namespace ClassText

def closing (c : ClassText) : List UInt8 := if c.dashed then [dash, bracketClose] else [bracketClose]

/-- What stands behind the opening bracket and the caret. -/
def inside (c : ClassText) : List UInt8 := c.items.flatMap ClassItem.bytes ++ c.closing

def bytes (c : ClassText) : List UInt8 :=
  bracketOpen :: if c.negated then caret :: c.inside else c.inside

def text (c : ClassText) : String := String.ofList (c.bytes.map Char.ofUInt8)

def Lists (c : ClassText) (x : UInt8) : Prop :=
  (∃ i ∈ c.items, i.Covers x) ∨ c.dashed = true ∧ x = dash

def Contains (c : ClassText) (x : UInt8) : Prop := if c.negated then ¬ c.Lists x else c.Lists x

end ClassText

section Spellings

theorem isDigit_digit (d : Fin 10) : isDigit (digit d) = true := by
  revert d
  decide

theorem toNat_digit (d : Fin 10) : (digit d).toNat - 0x30 = d := by
  revert d
  decide

theorem decimalValue_digits (hundreds tens units : Fin 10) :
    decimalValue [digit hundreds, digit tens, digit units] =
      100 * hundreds.val + 10 * tens.val + units.val := by
  simp only [decimalValue,List.foldl_cons,List.foldl_nil,toNat_digit]
  omega

/-- A code ends with its third digit, even where another digit follows. -/
theorem byteCode_digits {hundreds tens units : Fin 10}
    (hfits : 100 * hundreds.val + 10 * tens.val + units.val ≤ 255) (rest : List UInt8) :
    byteCode (digit hundreds :: digit tens :: digit units :: rest) =
      (UInt8.ofNat (100 * hundreds.val + 10 * tens.val + units.val), rest) := by
  have hdigits : ((digit hundreds :: digit tens :: digit units :: rest).take 3).takeWhile isDigit =
      [digit hundreds, digit tens, digit units] := by
    simp [isDigit_digit]
  have hvalue : ¬ decimalValue [digit hundreds, digit tens, digit units] > 255 := by
    rw [decimalValue_digits]
    exact Nat.not_lt.mpr hfits
  unfold byteCode
  simp only [hdigits]
  rw [if_neg (by simpa using hvalue),decimalValue_digits]
  rfl

/-- Every spelling begins with a byte that neither ends a class nor makes a range, and is read to its
end. -/
theorem Spelling.exists_spelled (s : Spelling) : ∃ b tail, s.bytes = b :: tail ∧
    b ≠ bracketClose ∧ b ≠ dash ∧ ∀ rest, spelled b (tail ++ rest) = (s.byte, rest) := by
  cases s with
  | code hundreds tens units hfits =>
    refine ⟨hash,_,rfl,by decide,by decide,?_⟩
    intro rest
    rw [spelled,if_pos rfl]
    exact byteCode_digits hfits rest
  | raw b hascii hplain =>
    obtain ⟨hclose,hhash,hdash⟩ := hplain
    refine ⟨b,[],rfl,hclose,hdash,?_⟩
    intro rest
    rw [spelled,if_neg hhash]
    rfl

theorem Spelling.ascii_bytes (s : Spelling) : ∀ x ∈ s.bytes, x < 0x80 := by
  have hdigit : ∀ d, digit d < 0x80 := by decide
  have hhash : hash < 0x80 := by decide
  cases s with
  | code hundreds tens units hfits => simp [bytes,hdigit,hhash]
  | raw b hascii hplain => simpa [bytes] using hascii

end Spellings

section Items

variable {b e x y : UInt8} {acc : ByteSet} {rest tail after : List UInt8}

/-- What follows does not make a range of the byte before it. -/
def Separate (rest : List UInt8) : Prop := ∀ e tail, rest = dash :: e :: tail → e = bracketClose

theorem separate_cons (hb : b ≠ dash) (rest : List UInt8) : Separate (b :: rest) := by
  intro e tail heq
  exact absurd (List.cons.inj heq).1 hb

theorem classItem_of_separate (h : spelled b rest = (x, after)) (hafter : Separate after) :
    classItem b rest = (.singleton x, after) := by
  simp only [classItem,h]
  split
  · rename_i d e tail
    rw [if_neg]
    intro hrange
    exact hrange.2 (hafter e tail (by rw [hrange.1]))
  · rfl

theorem classItem_of_range (hfirst : spelled b rest = (x, dash :: e :: tail)) (he : e ≠ bracketClose)
    (hlast : spelled e tail = (y, after)) : classItem b rest = (.range x y, after) := by
  simp only [classItem,hfirst,hlast]
  exact if_pos ⟨trivial,he⟩

theorem ClassItem.exists_classItem (i : ClassItem) : ∃ b tail, i.bytes = b :: tail ∧
    b ≠ bracketClose ∧ b ≠ dash ∧
      ∀ rest, Separate rest → classItem b (tail ++ rest) = (i.set, rest) := by
  cases i with
  | single s =>
    obtain ⟨b,tail,hbytes,hclose,hdash,hread⟩ := s.exists_spelled
    exact ⟨b,tail,hbytes,hclose,hdash,fun rest hrest => classItem_of_separate (hread rest) hrest⟩
  | range first last =>
    obtain ⟨b,tail,hbytes,hclose,hdash,hread⟩ := first.exists_spelled
    obtain ⟨e,tail',hbytes',hclose',_,hread'⟩ := last.exists_spelled
    refine ⟨b,tail ++ dash :: last.bytes,by rw [bytes,hbytes]; rfl,hclose,hdash,?_⟩
    intro rest _
    rw [hbytes',List.append_assoc]
    exact classItem_of_range (hread _) hclose' (hread' rest)

theorem ClassItem.ascii_bytes (i : ClassItem) : ∀ x ∈ i.bytes, x < 0x80 := by
  intro x hx
  cases i with
  | single s => exact s.ascii_bytes x hx
  | range first last =>
    rw [bytes,List.mem_append,List.mem_cons] at hx
    obtain hfirst | hdash | hlast := hx
    · exact first.ascii_bytes x hfirst
    · rw [hdash]
      decide
    · exact last.ascii_bytes x hlast

theorem separate_items (items : List ClassItem) (hrest : Separate rest) :
    Separate (items.flatMap ClassItem.bytes ++ rest) := by
  cases items with
  | nil => exact hrest
  | cons i items =>
    obtain ⟨b,tail,hbytes,_,hdash,_⟩ := i.exists_classItem
    rw [List.flatMap_cons,hbytes]
    exact separate_cons hdash _

/-- The items are read one by one, and then what follows them. -/
theorem classItems_append (items : List ClassItem) (hrest : Separate rest) (acc : ByteSet) :
    classItems acc (items.flatMap ClassItem.bytes ++ rest) =
      classItems (items.foldl (fun t i => t.union i.set) acc) rest := by
  induction items generalizing acc with
  | nil => rfl
  | cons i items ih =>
    obtain ⟨b,tail,hbytes,hclose,_,hread⟩ := i.exists_classItem
    have hitem := hread _ (separate_items items hrest)
    rw [List.flatMap_cons,hbytes,List.append_assoc,List.cons_append,classItems,if_neg hclose,hitem]
    exact ih (acc.union i.set)

theorem test_foldl_union (items : List ClassItem) (acc : ByteSet) :
    (items.foldl (fun t i => t.union i.set) acc).test x = true ↔
      acc.test x = true ∨ ∃ i ∈ items, i.Covers x := by
  induction items generalizing acc with
  | nil => simp
  | cons i items ih =>
    rw [List.foldl_cons,ih,ByteSet.test_union,Bool.or_eq_true,ClassItem.test_set,
      List.exists_mem_cons_iff,or_assoc]

theorem readClass_of_no_caret {bytes : List UInt8} (h : bytes.head? ≠ some caret) :
    readClass bytes = classItems .empty bytes := by
  cases bytes with
  | nil => rw [readClass,classItems]
  | cons b rest =>
    have hb : b ≠ caret := fun hcaret => h (congrArg some hcaret)
    rw [readClass,if_neg hb]
    split
    · rename_i hclose
      rw [classItems,if_pos hclose]
    · rfl

end Items

namespace ClassText

variable {x : UInt8}

theorem separate_closing (c : ClassText) : Separate c.closing := by
  intro e tail heq
  unfold closing at heq
  split at heq
  · cases heq
    rfl
  · cases heq

theorem exists_classItems_closing (c : ClassText) (acc : ByteSet) :
    ∃ s, classItems acc c.closing = some (s, []) ∧
      ∀ x, s.test x = true ↔ acc.test x = true ∨ c.dashed = true ∧ x = dash := by
  unfold closing
  cases c.dashed with
  | false =>
    refine ⟨acc,?_,by simp⟩
    simp [classItems]
  | true =>
    refine ⟨acc.union (.singleton dash),?_,by simp⟩
    have hitem : classItem dash [bracketClose] = (.singleton dash, [bracketClose]) := rfl
    have hdash : ¬ dash = bracketClose := by decide
    rw [if_pos rfl,classItems,if_neg hdash,hitem,classItems,if_pos rfl]

theorem exists_classItems (c : ClassText) :
    ∃ s, classItems .empty c.inside = some (s, []) ∧ ∀ x, s.test x = true ↔ c.Lists x := by
  rw [inside,classItems_append c.items c.separate_closing]
  obtain ⟨s,hread,htest⟩ := c.exists_classItems_closing (c.items.foldl (fun t i => t.union i.set) .empty)
  refine ⟨s,hread,?_⟩
  intro x
  rw [htest,test_foldl_union,Lists]
  simp

theorem head_inside (c : ClassText) (h : c.negated = false) : c.inside.head? ≠ some caret := by
  have hitems := c.no_caret h
  rw [inside,List.head?_append]
  cases hhead : (c.items.flatMap ClassItem.bytes).head? with
  | some b =>
    rw [hhead] at hitems
    exact hitems
  | none =>
    unfold closing
    split
    · decide
    · decide

theorem exists_readClass (c : ClassText) : ∃ rest s, c.bytes = bracketOpen :: rest ∧
    readClass rest = some (s, []) ∧ ∀ x, s.test x = true ↔ c.Contains x := by
  obtain ⟨s,hread,htest⟩ := c.exists_classItems
  cases hnegated : c.negated with
  | false =>
    refine ⟨c.inside,s,by simp [bytes,hnegated],?_,by simpa [Contains,hnegated] using htest⟩
    rw [readClass_of_no_caret (c.head_inside hnegated)]
    exact hread
  | true =>
    refine ⟨caret :: c.inside,s.compl,by simp [bytes,hnegated],?_,?_⟩
    · have hcaret : ¬ caret = bracketClose := by decide
      rw [readClass,if_neg hcaret,if_pos rfl,hread]
      rfl
    · intro x
      rw [ByteSet.test_compl,Contains,if_pos hnegated,← htest]
      simp

theorem ascii_bytes (c : ClassText) : ∀ x ∈ c.bytes, x < 0x80 := by
  have hdash : dash < 0x80 := by decide
  have hclose : bracketClose < 0x80 := by decide
  have hclosing : ∀ x ∈ c.closing, x < 0x80 := by
    unfold closing
    split
    · simp [hdash,hclose]
    · simp [hclose]
  have hinside : ∀ x ∈ c.inside, x < 0x80 := by
    intro x hx
    rw [inside,List.mem_append,List.mem_flatMap] at hx
    obtain ⟨i,_,hi⟩ | hx := hx
    · exact i.ascii_bytes x hi
    · exact hclosing x hx
  unfold bytes
  cases c.negated with
  | false => exact List.forall_mem_cons.mpr ⟨by decide,hinside⟩
  | true => exact List.forall_mem_cons.mpr ⟨by decide,List.forall_mem_cons.mpr ⟨by decide,hinside⟩⟩

end ClassText

/-- A class is always read, and accepts the single bytes that it contains, or only the empty word where it
contains none. -/
theorem parse_class (c : ClassText) : ∃ f, parse c.text = .ok f ∧
    ∀ w, f.accepts w = true ↔
      (∃ x, c.Contains x ∧ w = [x]) ∨ (∀ x, ¬ c.Contains x) ∧ w = [] := by
  obtain ⟨rest,s,hbytes,hread,htest⟩ := c.exists_readClass
  have htext : c.text.toUTF8.toList = bracketOpen :: rest :=
    (Text.toList_toUTF8_of_ascii c.ascii_bytes).trans hbytes
  have hcuts : Cuts c.text.toUTF8.toList [.atom s] := htext ▸ .bracket hread .nil
  have hderives : Derives .choice [.atom s] (s.language * 1) := .lone (.cons (.plain (.set s)) .empty)
  obtain ⟨f,hparse,hbuilt,hlanguage⟩ := parse_of_denotes ⟨_,hcuts,hderives⟩
  refine ⟨f,hparse,?_⟩
  intro w
  rw [Fragment.accepts_iff hbuilt.wellFormed,hlanguage,mul_one]
  simp only [← htest]
  exact ByteSet.mem_language

/-- The code takes three digits and leaves the fourth to the range; the reversed range adds nothing, and
the hyphen behind it is the last one. -/
theorem parse_class_of_neighbours : ∃ f, parse "[#0481-3z-a-]" = .ok f ∧
    ∀ w, f.accepts w = true ↔ ∃ x : UInt8, (x = 0x30 ∨ (0x31 ≤ x ∧ x ≤ 0x33) ∨ x = dash) ∧ w = [x] := by
  let c : ClassText :=
    { negated := false
      items := [.single (.code 0 4 8 (by decide)),
        .range (.raw 0x31 (by decide) (by decide)) (.raw 0x33 (by decide) (by decide)),
        .range (.raw 0x7a (by decide) (by decide)) (.raw 0x61 (by decide) (by decide))]
      dashed := true
      no_caret := by decide }
  have htext : c.text = "[#0481-3z-a-]" := by decide +kernel
  have hcontains : ∀ x, c.Contains x ↔ x = 0x30 ∨ (0x31 ≤ x ∧ x ≤ 0x33) ∨ x = dash := by
    intro x
    have hreversed : ¬ ((0x7a : UInt8) ≤ x ∧ x ≤ 0x61) := fun h =>
      absurd (UInt8.le_trans h.1 h.2) (by decide)
    simp [c,ClassText.Contains,ClassText.Lists,ClassItem.Covers,Spelling.byte,hreversed,or_assoc]
  obtain ⟨f,hparse,haccepts⟩ := parse_class c
  rw [htext] at hparse
  refine ⟨f,hparse,?_⟩
  intro w
  have hsome : ¬ ∀ x, ¬ c.Contains x := fun hnone => hnone dash ((hcontains dash).mpr (by simp))
  rw [haccepts,or_iff_left fun hempty => hsome hempty.1]
  simp only [hcontains]

end LexAutomata.Regex
