import LexAutomata.Proofs.NodeSet.Table
import Mathlib.Data.List.Pairwise

namespace LexAutomata.NodeSet

/-- No node is in both sets. -/
def Apart (s t : NodeSet) : Prop := ∀ id, s.contains id = true → ¬ t.contains id = true

instance : Std.Symm Apart := ⟨fun _ _ h id ht hs => h id hs ht⟩

/-- The sets `parts` divide the nodes in `U` among them: none is empty, and no node is in two. -/
structure Divides (bound : Nat) (U : Nat → Prop) (parts : List NodeSet) : Prop where
  wellFormed : ∀ s ∈ parts, s.WellFormed ∧ s.bound = bound
  nonempty : ∀ s ∈ parts, ∃ id, s.contains id = true
  disjoint : parts.Pairwise Apart
  covers : ∀ id, (∃ s ∈ parts, s.contains id = true) ↔ U id

/-- The nodes are in one block. -/
def Joined (parts : List NodeSet) (i j : Nat) : Prop :=
  ∃ s ∈ parts, s.contains i = true ∧ s.contains j = true

section Divides

variable {bound : Nat} {U V : Nat → Prop} {parts rest : List NodeSet} {s t : NodeSet} {i j : Nat}

theorem Joined.left (h : Joined parts i j) : ∃ s ∈ parts, s.contains i = true := by
  obtain ⟨s,hs,hi,_⟩ := h
  exact ⟨s,hs,hi⟩

theorem Joined.symm (h : Joined parts i j) : Joined parts j i := by
  obtain ⟨s,hs,hi,hj⟩ := h
  exact ⟨s,hs,hj,hi⟩

theorem joined_cons :
    Joined (s :: parts) i j ↔ s.contains i = true ∧ s.contains j = true ∨ Joined parts i j := by
  simp [Joined]

theorem joined_append : Joined (parts ++ rest) i j ↔ Joined parts i j ∨ Joined rest i j := by
  simp [Joined,or_and_right,exists_or]

theorem joined_perm (h : parts.Perm rest) : Joined parts i j ↔ Joined rest i j := by
  simp only [Joined,h.mem_iff]

theorem Divides.perm (h : Divides bound U parts) (hp : parts.Perm rest) : Divides bound U rest where
  wellFormed s hs := h.wellFormed s (hp.mem_iff.mpr hs)
  nonempty s hs := h.nonempty s (hp.mem_iff.mpr hs)
  disjoint := (hp.pairwise_iff fun hst => Std.Symm.symm _ _ hst).mp h.disjoint
  covers id := by
    rw [← h.covers id]
    simp only [hp.mem_iff]

theorem Divides.unique (h : Divides bound U parts) (hs : s ∈ parts) (ht : t ∈ parts)
    (hi : s.contains i = true) (hi' : t.contains i = true) : s = t := by
  by_contra hne
  exact h.disjoint.forall hs ht hne i hi hi'

theorem Divides.nodup (h : Divides bound U parts) : parts.Nodup := by
  refine h.disjoint.imp_of_mem fun {s t} hs _ hst heq => ?_
  obtain ⟨id,hid⟩ := h.nonempty s hs
  exact hst id hid (heq ▸ hid)

theorem Divides.exists_heads (h : Divides bound U parts) :
    ∃ head : NodeSet → Nat, (∀ s ∈ parts, s.contains (head s) = true) ∧
      (parts.map head).Nodup ∧ parts.map head ⊆ List.range bound := by
  have hhead : ∀ s ∈ parts, s.contains (s.toList.headD 0) = true := by
    intro s hs
    obtain ⟨id,hid⟩ := h.nonempty s hs
    have hmem := mem_toList.mpr hid
    cases hlist : s.toList with
    | nil =>
      rw [hlist] at hmem
      cases hmem
    | cons a l =>
      refine mem_toList.mp ?_
      rw [hlist]
      exact List.mem_cons_self
  refine ⟨fun s => s.toList.headD 0,hhead,?_,?_⟩
  · refine List.pairwise_map.mpr (h.disjoint.imp_of_mem fun {s t} hs ht hst heq => ?_)
    refine hst _ (hhead s hs) ?_
    rw [heq]
    exact hhead t ht
  · intro x hx
    obtain ⟨s,hs,rfl⟩ := List.mem_map.mp hx
    obtain ⟨hwf,hbound⟩ := h.wellFormed s hs
    exact List.mem_range.mpr (hbound ▸ hwf.1 _ (hhead s hs))

theorem Divides.length_le (h : Divides bound U parts) : parts.length ≤ bound := by
  obtain ⟨head,_,hnodup,hsub⟩ := h.exists_heads
  have hle := (hnodup.subperm hsub).length_le
  rwa [List.length_map,List.length_range] at hle

theorem Divides.eq_of_joined (h : Divides bound U parts) (hlength : bound ≤ parts.length)
    (hij : Joined parts i j) : i = j := by
  obtain ⟨head,hhead,hnodup,hsub⟩ := h.exists_heads
  have hperm : (parts.map head).Perm (List.range bound) := by
    refine (hnodup.subperm hsub).perm_of_length_le ?_
    rwa [List.length_map,List.length_range]
  obtain ⟨s,hs,hi,hj⟩ := hij
  have honly : ∀ id, s.contains id = true → id = head s := by
    intro id hid
    obtain ⟨hwf,hbound⟩ := h.wellFormed s hs
    have hmem := hperm.mem_iff.mpr (List.mem_range.mpr (hbound ▸ hwf.1 id hid))
    obtain ⟨t,ht,rfl⟩ := List.mem_map.mp hmem
    rw [h.unique ht hs (hhead t ht) hid]
  rw [honly i hi,honly j hj]

theorem divides_nil : Divides bound (fun _ => False) [] where
  wellFormed s hs := by cases hs
  nonempty s hs := by cases hs
  disjoint := .nil
  covers id := by simp

theorem Divides.append (h : Divides bound U parts) (k : Divides bound V rest)
    (hne : ∀ id, U id → ¬ V id) : Divides bound (fun id => U id ∨ V id) (parts ++ rest) where
  wellFormed s hs := (List.mem_append.mp hs).elim (h.wellFormed s) (k.wellFormed s)
  nonempty s hs := (List.mem_append.mp hs).elim (h.nonempty s) (k.nonempty s)
  disjoint := by
    refine List.pairwise_append.mpr ⟨h.disjoint,k.disjoint,fun s hs t ht id hid hid' => ?_⟩
    exact hne id ((h.covers id).mp ⟨s,hs,hid⟩) ((k.covers id).mp ⟨t,ht,hid'⟩)
  covers id := by
    rw [← h.covers id,← k.covers id]
    simp [or_and_right,exists_or]

theorem Divides.tail (h : Divides bound U (s :: parts)) :
    Divides bound (fun id => U id ∧ ¬ s.contains id = true) parts where
  wellFormed t ht := h.wellFormed t (List.mem_cons_of_mem _ ht)
  nonempty t ht := h.nonempty t (List.mem_cons_of_mem _ ht)
  disjoint := (List.pairwise_cons.mp h.disjoint).2
  covers id := by
    rw [← h.covers id]
    have hfirst := (List.pairwise_cons.mp h.disjoint).1
    constructor
    · intro hfrom
      obtain ⟨t,ht,hid⟩ := hfrom
      exact ⟨⟨t,List.mem_cons_of_mem _ ht,hid⟩,fun hs => hfirst t ht id hs hid⟩
    · intro hfrom
      obtain ⟨⟨t,ht,hid⟩,hs⟩ := hfrom
      rcases List.mem_cons.mp ht with rfl | ht
      · exact absurd hid hs
      · exact ⟨t,ht,hid⟩

theorem Divides.congr (h : Divides bound U parts) (hUV : ∀ id, U id ↔ V id) :
    Divides bound V parts :=
  ⟨h.wellFormed,h.nonempty,h.disjoint,fun id => (h.covers id).trans (hUV id)⟩

theorem Divides.joined_of_length_le_one (h : Divides bound U parts) (hlength : parts.length ≤ 1) :
    Joined parts i j ↔ U i ∧ U j := by
  rw [← h.covers i,← h.covers j]
  cases parts with
  | nil => simp [Joined]
  | cons s rest =>
    have hrest : rest = [] := by
      apply List.eq_nil_of_length_eq_zero
      rw [List.length_cons] at hlength
      omega
    subst hrest
    simp [Joined]

namespace Table

variable {blocks : Table} {id : Nat}

theorem holding?_eq_some_iff (h : Divides bound U blocks.sets) :
    blocks.holding? i = some id ↔ ∃ s, blocks.get? id = some s ∧ s.contains i = true := by
  rw [holding?,List.findIdx?_eq_some_iff_getElem]
  constructor
  · intro hfrom
    obtain ⟨hlt,hi,_⟩ := hfrom
    exact ⟨_,List.getElem?_eq_getElem hlt,hi⟩
  · intro hfrom
    obtain ⟨s,hs,hi⟩ := hfrom
    obtain ⟨hlt,rfl⟩ := List.getElem?_eq_some_iff.mp hs
    refine ⟨hlt,hi,fun k hk hki => ?_⟩
    have hsame := h.unique (List.getElem_mem (Nat.lt_trans hk hlt)) (List.getElem_mem hlt) hki hi
    have := (h.nodup.getElem_inj_iff).mp hsame
    omega

theorem exists_holding? (h : Divides bound U blocks.sets) (hi : U i) :
    ∃ id, blocks.holding? i = some id := by
  obtain ⟨s,hs,hsi⟩ := (h.covers i).mpr hi
  obtain ⟨id,hlt,rfl⟩ := List.mem_iff_getElem.mp hs
  exact ⟨id,(holding?_eq_some_iff h).mpr ⟨_,List.getElem?_eq_getElem hlt,hsi⟩⟩

theorem joined_iff_holding? (h : Divides bound U blocks.sets) (hi : U i) :
    Joined blocks.sets i j ↔ blocks.holding? i = blocks.holding? j := by
  obtain ⟨id,hid⟩ := exists_holding? h hi
  obtain ⟨s,hs,hsi⟩ := (holding?_eq_some_iff h).mp hid
  constructor
  · intro hfrom
    obtain ⟨t,ht,hti,htj⟩ := hfrom
    have hsame := h.unique (List.mem_of_getElem? hs) ht hsi hti
    rw [hid,eq_comm,holding?_eq_some_iff h]
    exact ⟨s,hs,hsame ▸ htj⟩
  · intro heq
    rw [hid,eq_comm,holding?_eq_some_iff h] at heq
    obtain ⟨t,ht,htj⟩ := heq
    rw [hs] at ht
    exact ⟨s,List.mem_of_getElem? hs,hsi,Option.some.inj ht ▸ htj⟩

end Table

end Divides

end LexAutomata.NodeSet
