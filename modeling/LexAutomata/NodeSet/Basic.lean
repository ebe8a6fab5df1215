import LexAutomata.Fault

namespace LexAutomata

/-- Bit `n` tells whether node `n` is a member. -/
structure NodeSet where
  bound : Nat
  bits : Nat
  count : Nat
  deriving DecidableEq

namespace NodeSet

def empty (bound : Nat) : NodeSet := ⟨bound, 0, 0⟩

def contains (s : NodeSet) (n : Nat) : Bool := s.bits.testBit n

instance : Membership Nat NodeSet := ⟨fun s n => s.contains n = true⟩

/-- Adds a node below the bound; any other node changes nothing. -/
def insert (s : NodeSet) (n : Nat) : NodeSet :=
  if n < s.bound ∧ s.contains n = false then { s with bits := s.bits ||| 1 <<< n, count := s.count + 1 }
  else s

/-- Whether the node is new, and the set with it; a node beyond the bound is a fault. -/
def insert? (s : NodeSet) (n : Nat) : Except Fault (Bool × NodeSet) :=
  if n < s.bound then .ok (!s.contains n, s.insert n) else .error .outOfRange

def erase (s : NodeSet) (n : Nat) : Bool × NodeSet :=
  if s.contains n then (true, { s with bits := s.bits ^^^ 1 <<< n, count := s.count - 1 })
  else (false, s)

def singleton (bound n : Nat) : NodeSet := (empty bound).insert n

/-- The numbers `lo + i` for every bit `i` of `bits`, which has at most `1 <<< level` bits. The halves
are listed one after the other, and a half without members at once. -/
def membersFrom : Nat → Nat → Nat → List Nat
  | 0, lo, bits => if bits = 0 then [] else [lo]
  | level + 1, lo, bits =>
    if bits = 0 then []
    else
      let high := bits >>> (1 <<< level)
      membersFrom level lo (bits ^^^ (high <<< (1 <<< level))) ++
        membersFrom level (lo + (1 <<< level)) high

/-- The members in ascending order. A single member is read off its place. -/
def toList (s : NodeSet) : List Nat :=
  if s.bits = 1 <<< s.bits.log2 then [s.bits.log2]
  else membersFrom (s.bits.log2 + 1).log2.succ 0 s.bits

def isEmpty (s : NodeSet) : Bool := s.count == 0

def least? (s : NodeSet) : Option Nat := s.toList.head?

/-- Members lie below the bound and are counted. -/
def WellFormed (s : NodeSet) : Prop :=
  (∀ n, s.contains n = true → n < s.bound) ∧ s.count = s.toList.length

@[simp] theorem contains_empty (bound n : Nat) : (empty bound).contains n = false := by
  simp [empty,contains]

@[simp] theorem bound_insert (s : NodeSet) (n : Nat) : (s.insert n).bound = s.bound := by
  unfold insert
  split <;> rfl

theorem contains_insert (s : NodeSet) (n m : Nat) :
    (s.insert n).contains m = (s.contains m || (decide (m = n) && decide (n < s.bound))) := by
  unfold insert
  split
  · rename_i h
    simp only [contains,Nat.testBit_or,Nat.one_shiftLeft,Nat.testBit_two_pow,h.1,decide_true,Bool.and_true]
    simp [eq_comm]
  · rename_i h
    by_cases hm : m = n
    · subst hm
      by_cases hb : m < s.bound <;> cases hc : s.contains m <;> simp_all
    · simp [hm]

theorem testBit_low (bits width i : Nat) :
    (bits ^^^ ((bits >>> width) <<< width)).testBit i = (bits.testBit i && decide (i < width)) := by
  rw [Nat.testBit_xor,Nat.testBit_shiftLeft,Nat.testBit_shiftRight]
  by_cases h : i < width
  · simp [h,Nat.not_le.mpr h]
  · have hw : width + (i - width) = i := by omega
    simp [h,Nat.not_lt.mp h,hw]

theorem mem_membersFrom {level lo bits n : Nat} (hb : bits < 1 <<< (1 <<< level)) :
    n ∈ membersFrom level lo bits ↔ lo ≤ n ∧ bits.testBit (n - lo) = true := by
  simp only [Nat.one_shiftLeft] at hb
  induction level generalizing lo bits with
  | zero =>
    have hbit : bits = 0 ∨ bits = 1 := by
      simp only [Nat.pow_zero,Nat.pow_one] at hb
      omega
    rcases hbit with rfl | rfl
    · simp [membersFrom]
    · rw [membersFrom,if_neg Nat.one_ne_zero,List.mem_singleton,Nat.testBit_one_eq_true_iff_self_eq_zero]
      omega
  | succ level ih =>
    rw [membersFrom]
    split
    · rename_i h0
      simp [h0]
    · have hwidth : 1 <<< level = 2 ^ level := Nat.one_shiftLeft level
      have hhigh : bits >>> 2 ^ level < 2 ^ 2 ^ level := by
        rw [Nat.shiftRight_eq_div_pow]
        refine Nat.div_lt_of_lt_mul ?_
        rw [← Nat.pow_add,← Nat.two_mul,← Nat.pow_succ']
        exact hb
      have hlow : bits ^^^ ((bits >>> 2 ^ level) <<< 2 ^ level) < 2 ^ 2 ^ level := by
        refine Nat.lt_pow_two_of_testBit _ fun i hi => ?_
        rw [testBit_low,decide_eq_false (Nat.not_lt.mpr hi),Bool.and_false]
      simp only [hwidth,List.mem_append,ih hhigh,ih hlow,testBit_low,Nat.testBit_shiftRight,
        Bool.and_eq_true,decide_eq_true_eq]
      by_cases hn : n - lo < 2 ^ level
      · have hne : ¬(lo + 2 ^ level ≤ n ∧ bits.testBit (2 ^ level + (n - (lo + 2 ^ level))) = true) := by
          rintro ⟨h,_⟩
          omega
        simp [hn,hne]
      · have hpos := Nat.two_pow_pos level
        have hsum : 2 ^ level + (n - (lo + 2 ^ level)) = n - lo := by omega
        rw [hsum]
        constructor
        · rintro (⟨_,_,h⟩ | ⟨h,ht⟩)
          · exact absurd h hn
          · exact ⟨by omega,ht⟩
        · rintro ⟨h,ht⟩
          exact .inr ⟨by omega,ht⟩

theorem lt_of_mem_membersFrom {level lo bits n : Nat} (h : n ∈ membersFrom level lo bits) :
    lo ≤ n ∧ n < lo + 1 <<< level := by
  rw [Nat.one_shiftLeft]
  induction level generalizing lo bits with
  | zero =>
    rw [membersFrom] at h
    split at h
    · simp at h
    · rw [List.mem_singleton.mp h]
      simp
  | succ level ih =>
    rw [membersFrom] at h
    split at h
    · simp at h
    · rw [Nat.one_shiftLeft] at h
      have hpow := Nat.two_pow_succ level
      rcases List.mem_append.mp h with h | h
      · have := ih h
        omega
      · have := ih h
        omega

theorem pairwise_membersFrom (level lo bits : Nat) :
    (membersFrom level lo bits).Pairwise (· < ·) := by
  induction level generalizing lo bits with
  | zero =>
    rw [membersFrom]
    split <;> simp
  | succ level ih =>
    rw [membersFrom]
    split
    · exact .nil
    · refine List.pairwise_append.mpr ⟨ih _ _,ih _ _,fun a ha b hb => ?_⟩
      have ha := lt_of_mem_membersFrom ha
      have hb := lt_of_mem_membersFrom hb
      omega

theorem pairwise_toList (s : NodeSet) : s.toList.Pairwise (· < ·) := by
  unfold toList
  split
  · exact List.pairwise_singleton _ _
  · exact pairwise_membersFrom _ _ _

@[simp] theorem mem_toList {s : NodeSet} {n : Nat} : n ∈ s.toList ↔ s.contains n = true := by
  have hb : s.bits < 1 <<< (1 <<< (s.bits.log2 + 1).log2.succ) := by
    rw [Nat.one_shiftLeft,Nat.one_shiftLeft]
    exact Nat.lt_of_lt_of_le Nat.lt_log2_self
      (Nat.pow_le_pow_right Nat.two_pos (Nat.le_of_lt Nat.lt_log2_self))
  unfold toList
  split
  · rename_i h
    generalize s.bits.log2 = top at h
    rw [List.mem_singleton,contains,h,Nat.one_shiftLeft,Nat.testBit_two_pow,decide_eq_true_eq]
    exact eq_comm
  · rw [mem_membersFrom hb]
    simp [contains]

end NodeSet

end LexAutomata
