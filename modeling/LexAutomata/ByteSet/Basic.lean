namespace LexAutomata

/-- Bit `b` tells whether byte `b` is a member. -/
structure ByteSet where
  bits : BitVec 256
  deriving DecidableEq

namespace ByteSet

def allBytes : List UInt8 := (List.range 256).map UInt8.ofNat

def test (s : ByteSet) (b : UInt8) : Bool := s.bits.getLsbD b.toNat

instance : Membership UInt8 ByteSet := ⟨fun s b => s.test b = true⟩

instance (b : UInt8) (s : ByteSet) : Decidable (b ∈ s) :=
  inferInstanceAs (Decidable (s.test b = true))

def empty : ByteSet := ⟨0#256⟩

def full : ByteSet := ⟨BitVec.allOnes 256⟩

def insert (s : ByteSet) (b : UInt8) : ByteSet := ⟨s.bits ||| BitVec.twoPow 256 b.toNat⟩

def erase (s : ByteSet) (b : UInt8) : ByteSet := ⟨s.bits &&& ~~~BitVec.twoPow 256 b.toNat⟩

def singleton (b : UInt8) : ByteSet := empty.insert b

/-- The bytes `lo, …, hi`; a reversed pair of bounds holds none. -/
def range (lo hi : UInt8) : ByteSet :=
  ⟨(BitVec.allOnes 256 <<< lo.toNat) &&& (BitVec.allOnes 256 >>> (255 - hi.toNat))⟩

def union (s t : ByteSet) : ByteSet := ⟨s.bits ||| t.bits⟩

def inter (s t : ByteSet) : ByteSet := ⟨s.bits &&& t.bits⟩

def diff (s t : ByteSet) : ByteSet := ⟨s.bits &&& ~~~t.bits⟩

def compl (s : ByteSet) : ByteSet := ⟨~~~s.bits⟩

def ofList (bs : List UInt8) : ByteSet := bs.foldl insert empty

def toList (s : ByteSet) : List UInt8 := allBytes.filter s.test

def size (s : ByteSet) : Nat := s.toList.length

def isEmpty (s : ByteSet) : Bool := s == empty

def isDisjoint (s t : ByteSet) : Bool := (s.inter t).isEmpty

def isSubset (s t : ByteSet) : Bool := (s.diff t).isEmpty

theorem mem_def {b : UInt8} {s : ByteSet} : b ∈ s ↔ s.test b = true := Iff.rfl

theorem ext {s t : ByteSet} (h : ∀ b, s.test b = t.test b) : s = t := by
  cases s with | mk x =>
  cases t with | mk y =>
  congr 1
  apply BitVec.eq_of_getLsbD_eq
  intro i hi
  have hb : (UInt8.ofNat i).toNat = i := by simpa using Nat.mod_eq_of_lt hi
  simpa [test,hb] using h (UInt8.ofNat i)

theorem mem_allBytes (b : UInt8) : b ∈ allBytes := by
  refine List.mem_map.mpr ⟨b.toNat,List.mem_range.mpr b.toNat_lt,?_⟩
  simp

private theorem eq_iff_toNat {a b : UInt8} : b = a ↔ a.toNat = b.toNat :=
  ⟨fun h => by rw [h],fun h => (UInt8.toNat.inj h).symm⟩

@[simp] theorem test_empty (b : UInt8) : empty.test b = false := by simp [empty,test]

@[simp] theorem test_full (b : UInt8) : full.test b = true := by
  have hb := b.toNat_lt
  rw [test,full,BitVec.getLsbD_allOnes,decide_eq_true_eq]
  exact hb

@[simp] theorem test_insert (s : ByteSet) (a b : UInt8) :
    (s.insert a).test b = (s.test b || decide (b = a)) := by
  have hb := b.toNat_lt
  simp only [insert,test,BitVec.getLsbD_or,BitVec.getLsbD_twoPow]
  have ha := a.toNat_lt
  simp [ha,eq_iff_toNat]

@[simp] theorem test_erase (s : ByteSet) (a b : UInt8) :
    (s.erase a).test b = (s.test b && !decide (b = a)) := by
  have hb := b.toNat_lt
  have ha := a.toNat_lt
  simp only [erase,test,BitVec.getLsbD_and,BitVec.getLsbD_not,BitVec.getLsbD_twoPow]
  simp [ha,hb,eq_iff_toNat]

@[simp] theorem test_singleton (a b : UInt8) : (singleton a).test b = decide (b = a) := by
  simp [singleton]

@[simp] theorem test_range (lo hi b : UInt8) :
    (range lo hi).test b = (decide (lo ≤ b) && decide (b ≤ hi)) := by
  have hb := b.toNat_lt
  have hh := hi.toNat_lt
  simp only [range,test,BitVec.getLsbD_and,BitVec.getLsbD_shiftLeft,BitVec.getLsbD_ushiftRight,
    BitVec.getLsbD_allOnes,UInt8.le_iff_toNat_le]
  rw [Bool.eq_iff_iff]
  simp only [Bool.and_eq_true,decide_eq_true_eq,Bool.not_eq_true',decide_eq_false_iff_not]
  omega

@[simp] theorem test_union (s t : ByteSet) (b : UInt8) :
    (s.union t).test b = (s.test b || t.test b) := by simp [union,test]

@[simp] theorem test_inter (s t : ByteSet) (b : UInt8) :
    (s.inter t).test b = (s.test b && t.test b) := by simp [inter,test]

@[simp] theorem test_diff (s t : ByteSet) (b : UInt8) :
    (s.diff t).test b = (s.test b && !t.test b) := by
  have hb := b.toNat_lt
  simp [diff,test,hb]

@[simp] theorem test_compl (s : ByteSet) (b : UInt8) : s.compl.test b = !s.test b := by
  have hb := b.toNat_lt
  simp [compl,test,hb]

@[simp] theorem mem_toList {s : ByteSet} {b : UInt8} : b ∈ s.toList ↔ s.test b = true := by
  simp [toList,mem_allBytes]

theorem isEmpty_iff {s : ByteSet} : s.isEmpty = true ↔ ∀ b, s.test b = false := by
  constructor
  · intro h b
    rw [isEmpty,beq_iff_eq] at h
    rw [h,test_empty]
  · intro h
    rw [isEmpty,beq_iff_eq]
    exact ext fun b => by rw [h b,test_empty]

theorem isEmpty_eq_false_iff {s : ByteSet} : s.isEmpty = false ↔ ∃ b, s.test b = true := by
  rw [← Bool.not_eq_true,isEmpty_iff]
  simp

theorem isDisjoint_iff {s t : ByteSet} :
    s.isDisjoint t = true ↔ ∀ b, s.test b = true → t.test b = false := by
  rw [isDisjoint,isEmpty_iff]
  refine forall_congr' fun b => ?_
  rw [test_inter]
  cases s.test b <;> cases t.test b <;> simp

theorem isSubset_iff {s t : ByteSet} :
    s.isSubset t = true ↔ ∀ b, s.test b = true → t.test b = true := by
  rw [isSubset,isEmpty_iff]
  refine forall_congr' fun b => ?_
  rw [test_diff]
  cases s.test b <;> cases t.test b <;> simp

theorem test_foldl_insert (bs : List UInt8) (s : ByteSet) (b : UInt8) :
    (bs.foldl insert s).test b = (s.test b || decide (b ∈ bs)) := by
  induction bs generalizing s with
  | nil => simp
  | cons a bs ih => simp [ih,Bool.or_assoc,List.mem_cons]

@[simp] theorem test_ofList (bs : List UInt8) (b : UInt8) :
    (ofList bs).test b = decide (b ∈ bs) := by simp [ofList,test_foldl_insert]

end ByteSet

end LexAutomata
