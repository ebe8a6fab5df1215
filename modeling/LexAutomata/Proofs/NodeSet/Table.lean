import LexAutomata.NodeSet.Table
import LexAutomata.Proofs.NodeSet.Count
import Mathlib.Data.List.Nodup

namespace LexAutomata.NodeSet.Table

variable {t u : Table} {s : NodeSet}

/-- Sets are only appended, so a number keeps its set. -/
def Extends (u t : Table) : Prop := t.sets <+: u.sets

theorem Extends.refl (t : Table) : t.Extends t := List.prefix_refl _

theorem Extends.trans {t u v : Table} (h : v.Extends u) (k : u.Extends t) : v.Extends t :=
  List.IsPrefix.trans k h

theorem Extends.get? (h : u.Extends t) {id : Nat} (hid : t.get? id = some s) :
    u.get? id = some s := by
  obtain ⟨rest,hrest⟩ := h
  have hlt := (List.getElem?_eq_some_iff.mp hid).1
  rw [Table.get?,← hrest,List.getElem?_append_left hlt]
  exact hid

theorem add_of_mem (h : s ∈ t.sets) : ∃ id, t.get? id = some s ∧ t.add s = (id, t) := by
  cases hfind : t.find? s with
  | none =>
    have := List.findIdx?_eq_none_iff.mp hfind s h
    simp at this
  | some id =>
    obtain ⟨hlt,heq,_⟩ := List.findIdx?_eq_some_iff_getElem.mp hfind
    refine ⟨id,?_,by rw [add,hfind]⟩
    rw [get?,List.getElem?_eq_getElem hlt,eq_of_beq heq]

theorem add_of_not_mem (h : s ∉ t.sets) : t.add s = (t.size, ⟨t.sets ++ [s]⟩) := by
  have hfind : t.find? s = none := by
    apply List.findIdx?_eq_none_iff.mpr
    intro x hx
    apply beq_false_of_ne
    intro heq
    exact h (heq ▸ hx)
  rw [add,hfind]

theorem extends_add (t : Table) (s : NodeSet) : (t.add s).2.Extends t := by
  by_cases h : s ∈ t.sets
  · obtain ⟨id,_,hadd⟩ := add_of_mem h
    rw [hadd]
    exact .refl t
  · rw [add_of_not_mem h]
    exact List.prefix_append _ _

theorem get?_add (t : Table) (s : NodeSet) : (t.add s).2.get? (t.add s).1 = some s := by
  by_cases h : s ∈ t.sets
  · obtain ⟨id,hid,hadd⟩ := add_of_mem h
    rw [hadd]
    exact hid
  · rw [add_of_not_mem h]
    exact List.getElem?_concat_length

theorem mem_add {r : NodeSet} : r ∈ (t.add s).2.sets ↔ r ∈ t.sets ∨ r = s := by
  by_cases h : s ∈ t.sets
  · obtain ⟨id,_,hadd⟩ := add_of_mem h
    rw [hadd]
    grind
  · rw [add_of_not_mem h,List.mem_append,List.mem_singleton]

theorem nodup_add (h : t.sets.Nodup) (s : NodeSet) : (t.add s).2.sets.Nodup := by
  by_cases hs : s ∈ t.sets
  · obtain ⟨id,_,hadd⟩ := add_of_mem hs
    rw [hadd]
    exact h
  · rw [add_of_not_mem hs]
    exact List.nodup_append.mpr ⟨h,List.nodup_singleton s,by grind⟩

theorem size_le_of_nodup {bound : Nat} (h : t.sets.Nodup)
    (hsets : ∀ s ∈ t.sets, s.WellFormed ∧ s.bound = bound) : t.size ≤ 1 <<< bound := by
  rw [Nat.one_shiftLeft]
  have hbits : (t.sets.map NodeSet.bits).Nodup := by
    refine h.map_on fun a ha b hb heq => ?_
    obtain ⟨hwa,hba⟩ := hsets a ha
    obtain ⟨hwb,hbb⟩ := hsets b hb
    exact ext_of_contains hwa hwb (hba.trans hbb.symm) fun n => by rw [contains,contains,heq]
  have hsub : t.sets.map NodeSet.bits ⊆ List.range (2 ^ bound) := by
    intro x hx
    obtain ⟨s,hs,rfl⟩ := List.mem_map.mp hx
    obtain ⟨hwf,hbound⟩ := hsets s hs
    refine List.mem_range.mpr (Nat.lt_pow_two_of_testBit _ fun i hi => ?_)
    cases hbit : s.bits.testBit i with
    | false => rfl
    | true =>
      have := hwf.1 i hbit
      omega
  have hle := (hbits.subperm hsub).length_le
  rwa [List.length_map,List.length_range] at hle

theorem remove_eq_of_append {init : List NodeSet} {last : NodeSet} (id : Nat) :
    (Table.mk (init ++ [last])).remove id = ⟨((init ++ [last]).set id last).dropLast⟩ := by
  rw [remove,List.getLast?_append]
  rfl

open List in
/-- The last set takes the place of the removed one. -/
theorem perm_remove {id : Nat} (h : t.get? id = some s) : t.sets.Perm (s :: (t.remove id).sets) := by
  obtain ⟨sets⟩ := t
  obtain ⟨hlt,heq⟩ := List.getElem?_eq_some_iff.mp h
  dsimp only at hlt heq ⊢
  rcases List.eq_nil_or_concat' sets with rfl | ⟨init,last,rfl⟩
  · cases hlt
  · rw [remove_eq_of_append]
    rw [List.length_append,List.length_singleton] at hlt
    by_cases hid : id < init.length
    · rw [List.set_append_left _ _ hid,List.dropLast_concat]
      rw [List.getElem_append_left hid] at heq
      have hinit : (s :: init.eraseIdx id).Perm init := heq ▸ List.getElem_cons_eraseIdx_perm hid
      have hset : (init.set id last).Perm (last :: init.eraseIdx id) :=
        List.set_perm_cons_eraseIdx hid last
      calc
        init ++ [last] ~ last :: init := perm_append_singleton last init
        _ ~ last :: s :: init.eraseIdx id := hinit.symm.cons last
        _ ~ s :: last :: init.eraseIdx id := .swap _ _ _
        _ ~ s :: init.set id last := hset.symm.cons s
    · have hlast : id = init.length := by omega
      subst hlast
      rw [List.getElem_concat_length rfl] at heq
      rw [List.set_append_right _ _ (Nat.le_refl _),Nat.sub_self,List.set_cons_zero,
        List.dropLast_concat,heq]
      exact List.perm_append_singleton s init

/-- Sets that are not in the table are appended in order. -/
theorem foldl_add {parts : List NodeSet} (h : (t.sets ++ parts).Nodup) :
    (parts.foldl (fun t s => (t.add s).2) t).sets = t.sets ++ parts := by
  induction parts generalizing t with
  | nil => simp
  | cons s parts ih =>
    have hnew : s ∉ t.sets := by
      intro hs
      exact (List.nodup_append.mp h).2.2 s hs s List.mem_cons_self rfl
    rw [List.foldl_cons,add_of_not_mem hnew]
    rw [List.append_cons] at h
    rw [ih h,List.append_assoc]
    rfl

end LexAutomata.NodeSet.Table
