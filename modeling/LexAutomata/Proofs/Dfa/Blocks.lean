import LexAutomata.Dfa.Partition
import LexAutomata.Proofs.NodeSet.Divides

namespace LexAutomata.Dfa

section Grouping

variable {κ : Type} {same : κ → κ → Bool} {bound : Nat}

theorem addToGroup_cases (same : κ → κ → Bool) (bound : Nat) (key : κ) (node : Nat)
    (gs : List (κ × NodeSet)) :
    (∃ before g after, gs = before ++ g :: after ∧ (∀ b ∈ before, same b.1 key = false) ∧
      same g.1 key = true ∧
      addToGroup same bound key node gs = before ++ (g.1, g.2.insert node) :: after) ∨
    (∀ g ∈ gs, same g.1 key = false) ∧
      addToGroup same bound key node gs = gs ++ [(key, .singleton bound node)] := by
  induction gs with
  | nil => exact .inr ⟨by simp,rfl⟩
  | cons g gs ih =>
    rw [addToGroup]
    by_cases hg : same g.1 key = true
    · rw [if_pos hg]
      exact .inl ⟨[],g,gs,rfl,by simp,hg,rfl⟩
    · have hg' : same g.1 key = false := Bool.not_eq_true _ ▸ hg
      rw [if_neg hg]
      rcases ih with ⟨before,k,after,rfl,hbefore,hk,heq⟩ | ⟨hnone,heq⟩
      · refine .inl ⟨g :: before,k,after,rfl,?_,hk,by rw [heq]; rfl⟩
        intro b hb
        rcases List.mem_cons.mp hb with rfl | hb
        · exact hg'
        · exact hbefore b hb
      · refine .inr ⟨?_,by rw [heq]; rfl⟩
        intro b hb
        rcases List.mem_cons.mp hb with rfl | hb
        · exact hg'
        · exact hnone b hb

/-- The groups of the nodes seen so far: their keys differ, and each holds the nodes of its key. -/
structure Grouped (same : κ → κ → Bool) (bound : Nat) (key : Nat → κ) (seen : List Nat)
    (gs : List (κ × NodeSet)) : Prop where
  wellFormed : ∀ g ∈ gs, g.2.WellFormed ∧ g.2.bound = bound
  members : ∀ g ∈ gs, ∀ id, g.2.contains id = true ↔ id ∈ seen ∧ same g.1 (key id) = true
  nonempty : ∀ g ∈ gs, ∃ id ∈ seen, same g.1 (key id) = true
  distinct : gs.Pairwise fun g k => same g.1 k.1 = false
  complete : ∀ id ∈ seen, ∃ g ∈ gs, same g.1 (key id) = true

namespace Grouped

variable {key : Nat → κ} {seen : List Nat} {gs before after : List (κ × NodeSet)} {g : κ × NodeSet}
  {node : Nat}

theorem join (hsame : Equivalence fun k l => same k l = true)
    (h : Grouped same bound key seen (before ++ g :: after))
    (hbefore : ∀ b ∈ before, same b.1 (key node) = false) (hg : same g.1 (key node) = true)
    (hlt : node < bound) :
    Grouped same bound key (seen ++ [node]) (before ++ (g.1, g.2.insert node) :: after) := by
  have hafter : ∀ k ∈ after, same k.1 (key node) = false := by
    intro k hk
    by_contra hk'
    have hgk := hsame.trans hg (hsame.symm (Bool.not_eq_false _ ▸ hk'))
    have hpair := (List.pairwise_append.mp h.distinct).2.1
    rw [(List.pairwise_cons.mp hpair).1 k hk] at hgk
    cases hgk
  have hother : ∀ k ∈ before ++ (g.1, g.2.insert node) :: after,
      k = (g.1, g.2.insert node) ∨ k ∈ before ++ g :: after ∧ same k.1 (key node) = false := by
    intro k hk
    simp only [List.mem_append,List.mem_cons] at hk ⊢
    rcases hk with hk | hk | hk
    · exact .inr ⟨.inl hk,hbefore k hk⟩
    · exact .inl hk
    · exact .inr ⟨.inr (.inr hk),hafter k hk⟩
  have hgmem : g ∈ before ++ g :: after := by simp
  have hgmem' : (g.1, g.2.insert node) ∈ before ++ (g.1, g.2.insert node) :: after := by simp
  constructor
  case wellFormed =>
    intro k hk
    rcases hother k hk with rfl | ⟨hk,_⟩
    · obtain ⟨hwf,hbound⟩ := h.wellFormed g hgmem
      exact ⟨NodeSet.wellFormed_insert hwf node,(NodeSet.bound_insert _ _).trans hbound⟩
    · exact h.wellFormed k hk
  case members =>
    intro k hk id
    rcases hother k hk with rfl | ⟨hk,hne⟩
    · have hmem := h.members g hgmem id
      have hbound := (h.wellFormed g hgmem).2
      rw [NodeSet.contains_insert,hbound]
      simp only [hlt,decide_true,Bool.and_true,Bool.or_eq_true,decide_eq_true_eq,hmem,
        List.mem_append,List.mem_singleton]
      constructor
      · intro hid
        rcases hid with ⟨hid,hkey⟩ | rfl
        · exact ⟨.inl hid,hkey⟩
        · exact ⟨.inr rfl,hg⟩
      · intro hfrom
        obtain ⟨hid,hkey⟩ := hfrom
        exact hid.imp_left fun hid => ⟨hid,hkey⟩
    · rw [h.members k hk id,List.mem_append,List.mem_singleton]
      constructor
      · intro hfrom
        obtain ⟨hid,hkey⟩ := hfrom
        exact ⟨.inl hid,hkey⟩
      · intro hfrom
        obtain ⟨hid,hkey⟩ := hfrom
        rcases hid with hid | rfl
        · exact ⟨hid,hkey⟩
        · rw [hne] at hkey
          cases hkey
  case nonempty =>
    intro k hk
    rcases hother k hk with rfl | ⟨hk,_⟩
    · exact ⟨node,by simp,hg⟩
    · obtain ⟨id,hid,hkey⟩ := h.nonempty k hk
      exact ⟨id,List.mem_append_left _ hid,hkey⟩
  case distinct =>
    have hpair := h.distinct
    simp only [List.pairwise_append,List.pairwise_cons,List.mem_cons] at hpair ⊢
    refine ⟨hpair.1,hpair.2.1,fun b hb k hk => ?_⟩
    rcases hk with rfl | hk
    · exact hpair.2.2 b hb g (.inl rfl)
    · exact hpair.2.2 b hb k (.inr hk)
  case complete =>
    intro id hid
    have hin : ∃ k ∈ before ++ g :: after, same k.1 (key id) = true := by
      rcases List.mem_append.mp hid with hid | hid
      · exact h.complete id hid
      · rw [List.mem_singleton.mp hid]
        exact ⟨g,hgmem,hg⟩
    obtain ⟨k,hk,hkey⟩ := hin
    simp only [List.mem_append,List.mem_cons] at hk
    rcases hk with hk | rfl | hk
    · exact ⟨k,by simp [hk],hkey⟩
    · exact ⟨_,hgmem',hkey⟩
    · exact ⟨k,by simp [hk],hkey⟩

theorem start (hsame : Equivalence fun k l => same k l = true) (h : Grouped same bound key seen gs)
    (hnone : ∀ g ∈ gs, same g.1 (key node) = false) (hlt : node < bound) :
    Grouped same bound key (seen ++ [node]) (gs ++ [(key node, .singleton bound node)]) := by
  have hfresh : ∀ id ∈ seen, ¬ same (key node) (key id) = true := by
    intro id hid hkey
    obtain ⟨g,hg,hgid⟩ := h.complete id hid
    have hgnode := hsame.trans hgid (hsame.symm hkey)
    rw [hnone g hg] at hgnode
    cases hgnode
  constructor
  case wellFormed =>
    intro k hk
    rcases List.mem_append.mp hk with hk | hk
    · exact h.wellFormed k hk
    · rw [List.mem_singleton.mp hk]
      exact ⟨NodeSet.wellFormed_singleton bound node,NodeSet.bound_singleton bound node⟩
  case members =>
    intro k hk id
    rw [List.mem_append,List.mem_singleton]
    rcases List.mem_append.mp hk with hold | hk
    · rw [h.members k hold id]
      constructor
      · intro hfrom
        obtain ⟨hid,hkey⟩ := hfrom
        exact ⟨.inl hid,hkey⟩
      · intro hfrom
        obtain ⟨hid,hkey⟩ := hfrom
        rcases hid with hid | rfl
        · exact ⟨hid,hkey⟩
        · rw [hnone k hold] at hkey
          cases hkey
    · rw [List.mem_singleton.mp hk,NodeSet.contains_singleton]
      constructor
      · intro hfrom
        obtain ⟨hid,_⟩ := hfrom
        rw [hid]
        exact ⟨.inr rfl,hsame.refl _⟩
      · intro hfrom
        obtain ⟨hid,hkey⟩ := hfrom
        rcases hid with hid | rfl
        · exact absurd hkey (hfresh id hid)
        · exact ⟨rfl,hlt⟩
  case nonempty =>
    intro k hk
    rcases List.mem_append.mp hk with hk | hk
    · obtain ⟨id,hid,hkey⟩ := h.nonempty k hk
      exact ⟨id,List.mem_append_left _ hid,hkey⟩
    · rw [List.mem_singleton.mp hk]
      exact ⟨node,by simp,hsame.refl _⟩
  case distinct =>
    refine List.pairwise_append.mpr ⟨h.distinct,List.pairwise_singleton _ _,?_⟩
    intro g hg k hk
    rw [List.mem_singleton.mp hk]
    exact hnone g hg
  case complete =>
    intro id hid
    rcases List.mem_append.mp hid with hid | hid
    · obtain ⟨g,hg,hkey⟩ := h.complete id hid
      exact ⟨g,List.mem_append_left _ hg,hkey⟩
    · rw [List.mem_singleton.mp hid]
      exact ⟨_,List.mem_append_right _ List.mem_cons_self,hsame.refl _⟩

theorem add (hsame : Equivalence fun k l => same k l = true) (h : Grouped same bound key seen gs)
    (hlt : node < bound) :
    Grouped same bound key (seen ++ [node]) (addToGroup same bound (key node) node gs) := by
  rcases addToGroup_cases same bound (key node) node gs with
    ⟨before,g,after,rfl,hbefore,hg,heq⟩ | ⟨hnone,heq⟩
  · rw [heq]
    exact h.join hsame hbefore hg hlt
  · rw [heq]
    exact h.start hsame hnone hlt

theorem addAll (hsame : Equivalence fun k l => same k l = true) {ids : List Nat}
    (h : Grouped same bound key seen gs) (hlt : ∀ id ∈ ids, id < bound) :
    Grouped same bound key (seen ++ ids)
      ((ids.map fun id => (key id, id)).foldl (fun gs p => addToGroup same bound p.1 p.2 gs) gs) := by
  induction ids generalizing seen gs with
  | nil =>
    rw [List.append_nil]
    exact h
  | cons id ids ih =>
    have hnext := h.add hsame (hlt id List.mem_cons_self)
    have hall := ih hnext fun j hj => hlt j (List.mem_cons_of_mem _ hj)
    rw [List.append_assoc] at hall
    exact hall

end Grouped

section Groups

variable (key : Nat → κ) {ids : List Nat}

theorem grouped_groups (hsame : Equivalence fun k l => same k l = true)
    (hlt : ∀ id ∈ ids, id < bound) :
    ∃ gs, groups same bound (ids.map fun id => (key id, id)) = gs.map (·.2) ∧
      Grouped same bound key ids gs := by
  have hempty : Grouped same bound key [] [] := ⟨by simp,by simp,by simp,.nil,by simp⟩
  exact ⟨_,rfl,hempty.addAll hsame hlt⟩

theorem divides_groups (hsame : Equivalence fun k l => same k l = true)
    (hlt : ∀ id ∈ ids, id < bound) :
    NodeSet.Divides bound (· ∈ ids) (groups same bound (ids.map fun id => (key id, id))) := by
  obtain ⟨gs,hgs,h⟩ := grouped_groups key hsame hlt
  rw [hgs]
  constructor
  case wellFormed =>
    intro s hs
    obtain ⟨g,hg,rfl⟩ := List.mem_map.mp hs
    exact h.wellFormed g hg
  case nonempty =>
    intro s hs
    obtain ⟨g,hg,rfl⟩ := List.mem_map.mp hs
    obtain ⟨id,hid,hkey⟩ := h.nonempty g hg
    exact ⟨id,(h.members g hg id).mpr ⟨hid,hkey⟩⟩
  case disjoint =>
    refine List.pairwise_map.mpr (h.distinct.imp_of_mem fun {g k} hg hk hne id hgid hkid => ?_)
    have hgkey := ((h.members g hg id).mp hgid).2
    have hkkey := ((h.members k hk id).mp hkid).2
    have heq := hsame.trans hgkey (hsame.symm hkkey)
    rw [hne] at heq
    cases heq
  case covers =>
    intro id
    constructor
    · intro hfrom
      obtain ⟨s,hs,hid⟩ := hfrom
      obtain ⟨g,hg,rfl⟩ := List.mem_map.mp hs
      exact ((h.members g hg id).mp hid).1
    · intro hid
      obtain ⟨g,hg,hkey⟩ := h.complete id hid
      exact ⟨g.2,List.mem_map_of_mem hg,(h.members g hg id).mpr ⟨hid,hkey⟩⟩

/-- Two nodes are in one group if and only if their keys are the same. -/
theorem joined_groups (hsame : Equivalence fun k l => same k l = true)
    (hlt : ∀ id ∈ ids, id < bound) {i j : Nat} :
    NodeSet.Joined (groups same bound (ids.map fun id => (key id, id))) i j ↔
      i ∈ ids ∧ j ∈ ids ∧ same (key i) (key j) = true := by
  obtain ⟨gs,hgs,h⟩ := grouped_groups key hsame hlt
  rw [hgs]
  constructor
  · intro hfrom
    obtain ⟨s,hs,hi,hj⟩ := hfrom
    obtain ⟨g,hg,rfl⟩ := List.mem_map.mp hs
    obtain ⟨hiseen,hikey⟩ := (h.members g hg i).mp hi
    obtain ⟨hjseen,hjkey⟩ := (h.members g hg j).mp hj
    exact ⟨hiseen,hjseen,hsame.trans (hsame.symm hikey) hjkey⟩
  · intro hfrom
    obtain ⟨hi,hj,hkey⟩ := hfrom
    obtain ⟨g,hg,hgi⟩ := h.complete i hi
    refine ⟨g.2,List.mem_map_of_mem hg,(h.members g hg i).mpr ⟨hi,hgi⟩,?_⟩
    exact (h.members g hg j).mpr ⟨hj,hsame.trans hgi hkey⟩

end Groups

end Grouping

section Replace

variable {bound id i j : Nat} {U : Nat → Prop} {blocks : Partition} {block : NodeSet}
  {parts : List NodeSet}

/-- The other blocks stay, in some order, and the parts come after them. -/
theorem sets_replaceBlock (h : NodeSet.Divides bound U blocks.sets)
    (hid : blocks.get? id = some block)
    (hparts : NodeSet.Divides bound (fun i => block.contains i = true) parts) :
    (replaceBlock blocks id parts).sets = (blocks.remove id).sets ++ parts ∧
      NodeSet.Divides bound U ((blocks.remove id).sets ++ parts) := by
  have hrest := (h.perm (NodeSet.Table.perm_remove hid)).tail
  have hall := hrest.append hparts fun id hid => hid.2
  refine ⟨NodeSet.Table.foldl_add hall.nodup,hall.congr fun i => ?_⟩
  have hin : block.contains i = true → U i := by
    intro hi
    exact (h.covers i).mp ⟨block,List.mem_of_getElem? hid,hi⟩
  tauto

theorem divides_replaceBlock (h : NodeSet.Divides bound U blocks.sets)
    (hid : blocks.get? id = some block)
    (hparts : NodeSet.Divides bound (fun i => block.contains i = true) parts) :
    NodeSet.Divides bound U (replaceBlock blocks id parts).sets := by
  obtain ⟨heq,hdivides⟩ := sets_replaceBlock h hid hparts
  rw [heq]
  exact hdivides

theorem size_replaceBlock (h : NodeSet.Divides bound U blocks.sets)
    (hid : blocks.get? id = some block)
    (hparts : NodeSet.Divides bound (fun i => block.contains i = true) parts) :
    (replaceBlock blocks id parts).size + 1 = blocks.size + parts.length := by
  have hlength := (NodeSet.Table.perm_remove hid).length_eq
  rw [NodeSet.Table.size,(sets_replaceBlock h hid hparts).1,List.length_append,NodeSet.Table.size,
    hlength,List.length_cons]
  omega

theorem joined_replaceBlock (h : NodeSet.Divides bound U blocks.sets)
    (hid : blocks.get? id = some block)
    (hparts : NodeSet.Divides bound (fun i => block.contains i = true) parts) :
    NodeSet.Joined (replaceBlock blocks id parts).sets i j ↔
      NodeSet.Joined blocks.sets i j ∧ (block.contains i = true → NodeSet.Joined parts i j) := by
  have hperm := NodeSet.Table.perm_remove hid
  have hrest := (h.perm hperm).tail
  rw [(sets_replaceBlock h hid hparts).1,NodeSet.joined_append,NodeSet.joined_perm hperm,
    NodeSet.joined_cons]
  constructor
  · intro hij
    rcases hij with hij | hij
    · refine ⟨.inr hij,fun hi => ?_⟩
      exact absurd hi ((hrest.covers i).mp hij.left).2
    · have hi := (hparts.covers i).mp hij.left
      have hj := (hparts.covers j).mp hij.symm.left
      exact ⟨.inl ⟨hi,hj⟩,fun _ => hij⟩
  · intro hfrom
    obtain ⟨hij,hin⟩ := hfrom
    rcases hij with ⟨hi,_⟩ | hij
    · exact .inr (hin hi)
    · exact .inl hij

end Replace

end LexAutomata.Dfa
