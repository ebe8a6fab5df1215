import LexAutomata.NodeSet.Basic
import Mathlib.Data.List.Perm.Subperm

namespace LexAutomata.NodeSet

theorem nodup_toList (s : NodeSet) : s.toList.Nodup :=
  (pairwise_toList s).imp Nat.ne_of_lt

theorem toList_congr {s t : NodeSet} (h : s.bits = t.bits) : s.toList = t.toList := by
  unfold toList
  rw [h]

@[simp] theorem bound_empty (bound : Nat) : (empty bound).bound = bound := rfl

theorem wellFormed_empty (bound : Nat) : (empty bound).WellFormed := by
  have h : (empty bound).toList = [] := by
    apply List.eq_nil_iff_forall_not_mem.mpr
    intro n hn
    rw [mem_toList,contains_empty] at hn
    exact Bool.noConfusion hn
  refine ⟨fun n hn => ?_,?_⟩
  · rw [contains_empty] at hn
    exact Bool.noConfusion hn
  · rw [h]
    rfl

theorem contains_insert_of_contains {s : NodeSet} {n m : Nat} (h : s.contains m = true) :
    (s.insert n).contains m = true := by
  rw [contains_insert,h,Bool.true_or]

theorem wellFormed_insert {s : NodeSet} (h : s.WellFormed) (n : Nat) : (s.insert n).WellFormed := by
  by_cases hn : n < s.bound ∧ s.contains n = false
  · have hc : (s.insert n).count = s.count + 1 := by
      unfold insert
      rw [if_pos hn]
    have hp : (s.insert n).toList.Perm (n :: s.toList) := by
      apply (List.perm_ext_iff_of_nodup (nodup_toList _) _).mpr
      · intro m
        rw [mem_toList,contains_insert,List.mem_cons,mem_toList]
        simp [hn.1,or_comm]
      · refine List.nodup_cons.mpr ⟨?_,nodup_toList s⟩
        rw [mem_toList,hn.2]
        exact Bool.false_ne_true
    refine ⟨fun m hm => ?_,?_⟩
    · rw [contains_insert,Bool.or_eq_true] at hm
      rw [bound_insert]
      rcases hm with hm | hm
      · exact h.1 m hm
      · simp only [Bool.and_eq_true,decide_eq_true_eq] at hm
        rw [hm.1]
        exact hm.2
    · rw [hc,h.2,hp.length_eq,List.length_cons]
  · have he : s.insert n = s := by
      unfold insert
      rw [if_neg hn]
    rw [he]
    exact h

theorem insert_of_contains {s : NodeSet} {n : Nat} (h : s.contains n = true) : s.insert n = s := by
  unfold insert
  rw [if_neg (by simp [h])]

theorem count_insert {s : NodeSet} {n : Nat} (hlt : n < s.bound) (hnew : s.contains n = false) :
    (s.insert n).count = s.count + 1 := by
  unfold insert
  rw [if_pos ⟨hlt,hnew⟩]

theorem wellFormed_singleton (bound n : Nat) : (singleton bound n).WellFormed :=
  wellFormed_insert (wellFormed_empty bound) n

@[simp] theorem bound_singleton (bound n : Nat) : (singleton bound n).bound = bound :=
  bound_insert _ _

theorem contains_singleton {bound n m : Nat} :
    (singleton bound n).contains m = true ↔ m = n ∧ n < bound := by
  rw [singleton,contains_insert,contains_empty,bound_empty,Bool.false_or,Bool.and_eq_true,
    decide_eq_true_eq,decide_eq_true_eq]

@[simp] theorem bound_erase (s : NodeSet) (n : Nat) : (s.erase n).2.bound = s.bound := by
  unfold erase
  split <;> rfl

theorem contains_erase (s : NodeSet) (n m : Nat) :
    (s.erase n).2.contains m = (s.contains m && !decide (m = n)) := by
  unfold erase
  split
  · rename_i h
    simp only [contains,Nat.testBit_xor,Nat.one_shiftLeft,Nat.testBit_two_pow]
    by_cases hm : m = n
    · subst hm
      have hbit : s.bits.testBit m = true := h
      simp [hbit]
    · simp [hm,Ne.symm hm]
  · rename_i h
    by_cases hm : m = n
    · subst hm
      simp [Bool.not_eq_true _ ▸ h]
    · simp [hm]

theorem wellFormed_erase {s : NodeSet} (h : s.WellFormed) (n : Nat) : (s.erase n).2.WellFormed := by
  refine ⟨fun m hm => ?_,?_⟩
  · rw [contains_erase,Bool.and_eq_true] at hm
    rw [bound_erase]
    exact h.1 m hm.1
  · cases hn : s.contains n with
    | false =>
      have hself : (s.erase n).2 = s := by
        unfold erase
        rw [hn]
        rfl
      rw [hself]
      exact h.2
    | true =>
      have hcount : (s.erase n).2.count = s.count - 1 := by
        unfold erase
        rw [hn]
        rfl
      have hp : (s.erase n).2.toList.Perm (s.toList.erase n) := by
        apply (List.perm_ext_iff_of_nodup (nodup_toList _) ((nodup_toList s).erase n)).mpr
        intro m
        rw [mem_toList,contains_erase,(nodup_toList s).mem_erase_iff,mem_toList]
        simp [and_comm]
      rw [hcount,hp.length_eq,List.length_erase_of_mem (mem_toList.mpr hn),h.2]

theorem isEmpty_iff {s : NodeSet} (h : s.WellFormed) :
    s.isEmpty = true ↔ ∀ n, s.contains n = false := by
  rw [isEmpty,beq_iff_eq,h.2,List.length_eq_zero_iff,List.eq_nil_iff_forall_not_mem]
  simp only [mem_toList,Bool.not_eq_true]

/-- A set that does not count more than a subset of it has no further members. -/
theorem contains_of_count_le {s t : NodeSet} (hs : s.WellFormed) (ht : t.WellFormed)
    (h : ∀ n, s.contains n = true → t.contains n = true) (hc : t.count ≤ s.count) {n : Nat}
    (hn : t.contains n = true) : s.contains n = true := by
  rw [hs.2,ht.2] at hc
  have hsub := (nodup_toList s).subperm fun n hn => mem_toList.mpr (h n (mem_toList.mp hn))
  have hp := hsub.perm_of_length_le hc
  exact mem_toList.mp (hp.mem_iff.mpr (mem_toList.mpr hn))

theorem count_le_of_contains {s t : NodeSet} (hs : s.WellFormed) (ht : t.WellFormed)
    (h : ∀ n, s.contains n = true → t.contains n = true) : s.count ≤ t.count := by
  rw [hs.2,ht.2]
  have hsub := (nodup_toList s).subperm fun n hn => mem_toList.mpr (h n (mem_toList.mp hn))
  exact hsub.length_le

theorem count_le_bound {s : NodeSet} (h : s.WellFormed) : s.count ≤ s.bound := by
  rw [h.2]
  have hsub : s.toList ⊆ List.range s.bound := by
    intro n hn
    exact List.mem_range.mpr (h.1 n (mem_toList.mp hn))
  simpa using ((nodup_toList s).subperm hsub).length_le

theorem ext_of_contains {s t : NodeSet} (hs : s.WellFormed) (ht : t.WellFormed)
    (hb : s.bound = t.bound) (h : ∀ n, s.contains n = t.contains n) : s = t := by
  have hbits : s.bits = t.bits := Nat.eq_of_testBit_eq h
  have hcount : s.count = t.count := by rw [hs.2,ht.2,toList_congr hbits]
  cases s
  cases t
  simp_all

section Inserted

variable {ids : List Nat} {s : NodeSet}

theorem wellFormed_foldl_insert (h : s.WellFormed) : (ids.foldl insert s).WellFormed := by
  induction ids generalizing s with
  | nil => exact h
  | cons id ids ih => exact ih (wellFormed_insert h id)

theorem bound_foldl_insert : (ids.foldl insert s).bound = s.bound := by
  induction ids generalizing s with
  | nil => rfl
  | cons id ids ih => exact ih.trans (bound_insert s id)

theorem contains_foldl_insert {n : Nat} :
    (ids.foldl insert s).contains n = true ↔ s.contains n = true ∨ n ∈ ids ∧ n < s.bound := by
  induction ids generalizing s with
  | nil => simp
  | cons id ids ih =>
    rw [List.foldl_cons,ih,contains_insert,bound_insert]
    simp only [Bool.or_eq_true,Bool.and_eq_true,decide_eq_true_eq,List.mem_cons]
    grind

end Inserted

end LexAutomata.NodeSet
