import LexAutomata.Proofs.TaggedNfa.WellFormed
import Mathlib.Data.Finset.Card
import Mathlib.Order.Interval.Set.Defs

namespace LexAutomata.TaggedNfa

variable {n m : TaggedNfa} {added : List (String × Fragment)} {f g : Fragment} {name other : String}
  {offset : Nat} {e : Edge} {k : NamedFinal}

/-- The names of two fragments or more. -/
def sharedNames (added : List (String × Fragment)) : Finset String :=
  (added.map (·.1)).toFinset.filter fun name => 2 ≤ (added.map (·.1)).count name

/-- The nodes in use after the fragments: the start, those of the copies, and one for each shared name. -/
def nodesFor (added : List (String × Fragment)) : Nat :=
  1 + (added.map fun p => p.2.size).sum + (sharedNames added).card

/-- The fragment was added under the name, and its nodes follow all those in use before it. -/
def Placed (added : List (String × Fragment)) (name : String) (f : Fragment) (offset : Nat) : Prop :=
  ∃ before after, added = before ++ (name, f) :: after ∧ offset = nodesFor before

section Places

theorem count_names_append :
    ((added ++ [(name, f)]).map (·.1)).count other =
      (added.map (·.1)).count other + if other = name then 1 else 0 := by
  rw [List.map_append,List.count_append,List.map_singleton,List.count_singleton]
  by_cases h : other = name
  · simp [h]
  · simp [h,Ne.symm h]

theorem mem_sharedNames :
    name ∈ sharedNames added ↔ 2 ≤ (added.map (·.1)).count name := by
  rw [sharedNames,Finset.mem_filter,List.mem_toFinset,and_iff_right_iff_imp]
  intro h
  exact List.count_pos_iff.mp (by omega)

/-- The second fragment of a name makes it shared. -/
theorem card_sharedNames_append :
    (sharedNames (added ++ [(name, f)])).card =
      (sharedNames added).card + if (added.map (·.1)).count name = 1 then 1 else 0 := by
  split
  · rename_i hone
    have hnew : name ∉ sharedNames added := by
      rw [mem_sharedNames,hone]
      omega
    rw [← Finset.card_insert_of_notMem hnew]
    congr 1
    ext x
    rw [mem_sharedNames,count_names_append,Finset.mem_insert,mem_sharedNames]
    grind
  · rename_i hnot
    rw [Nat.add_zero]
    congr 1
    ext x
    rw [mem_sharedNames,count_names_append,mem_sharedNames]
    grind

theorem nodesFor_append :
    nodesFor (added ++ [(name, f)]) =
      nodesFor added + f.size + if (added.map (·.1)).count name = 1 then 1 else 0 := by
  rw [nodesFor,nodesFor,card_sharedNames_append,List.map_append,List.sum_append]
  simp only [List.map_cons,List.map_nil,List.sum_cons,List.sum_nil]
  omega

theorem nodesFor_le (added rest : List (String × Fragment)) :
    nodesFor added ≤ nodesFor (added ++ rest) := by
  induction rest generalizing added with
  | nil => rw [List.append_nil]
  | cons p rest ih =>
    have hnext := ih (added ++ [(p.1, p.2)])
    rw [nodesFor_append,List.append_assoc,List.singleton_append] at hnext
    exact le_trans (by omega) hnext

theorem placed_append :
    Placed (added ++ [(name, f)]) other g offset ↔
      Placed added other g offset ∨ other = name ∧ g = f ∧ offset = nodesFor added := by
  constructor
  · rintro ⟨before,after,heq,hoffset⟩
    rcases List.eq_nil_or_concat after with rfl | ⟨after,last,rfl⟩
    · obtain ⟨rfl,hlast⟩ := List.append_inj' heq rfl
      cases hlast
      exact .inr ⟨rfl,rfl,hoffset⟩
    · rw [List.concat_eq_append,← List.cons_append,← List.append_assoc] at heq
      exact .inl ⟨before,after,(List.append_inj' heq rfl).1,hoffset⟩
  · rintro (⟨before,after,rfl,hoffset⟩ | ⟨rfl,rfl,rfl⟩)
    · exact ⟨before,after ++ [(name, f)],by simp,hoffset⟩
    · exact ⟨added,[],rfl,rfl⟩

theorem Placed.append (h : Placed added name f offset) (p : String × Fragment) :
    Placed (added ++ [p]) name f offset := placed_append.mpr (.inl h)

/-- The copies stand one after the other: each ends before the nodes taken later. -/
theorem Placed.le (h : Placed added name f offset) : offset + f.size ≤ nodesFor added := by
  obtain ⟨before,after,rfl,rfl⟩ := h
  have hle := nodesFor_le (before ++ [(name, f)]) after
  rw [nodesFor_append,List.append_assoc,List.singleton_append] at hle
  omega

theorem Placed.wellFormed (h : Placed added name f offset) (hwf : ∀ p ∈ added, p.2.WellFormed) :
    f.WellFormed := by
  obtain ⟨before,after,rfl,_⟩ := h
  exact hwf (name, f) (by simp)

theorem Placed.pos (h : Placed added name f offset) : 0 < offset := by
  obtain ⟨before,_,_,rfl⟩ := h
  unfold nodesFor
  omega

theorem not_placed_nil : ¬ Placed [] name f offset := by
  rintro ⟨before,after,heq,_⟩
  cases before <;> cases heq

/-- Two copies are the same, or one of them ends before the other begins. -/
theorem Placed.same_or_apart {place : Nat} (h : Placed added name f offset)
    (h' : Placed added other g place) :
    (name = other ∧ f = g ∧ offset = place) ∨ offset + f.size ≤ place ∨ place + g.size ≤ offset := by
  induction added using List.reverseRecOn with
  | nil => exact absurd h not_placed_nil
  | append_singleton added p ih =>
    rcases placed_append.mp h with h | ⟨rfl,rfl,rfl⟩
    · rcases placed_append.mp h' with h' | ⟨rfl,rfl,rfl⟩
      · exact ih h h'
      · exact .inr (.inl h.le)
    · rcases placed_append.mp h' with h' | ⟨rfl,rfl,rfl⟩
      · exact .inr (.inr h'.le)
      · exact .inl ⟨rfl,rfl,rfl⟩

/-- The only fragment of a name has one place. -/
theorem Placed.unique {other : Nat} (h : Placed added name f offset) (h' : Placed added name g other)
    (hone : (added.map (·.1)).count name = 1) : g = f ∧ other = offset := by
  obtain ⟨before,after,rfl,rfl⟩ := h
  obtain ⟨first,rest,heq,rfl⟩ := h'
  have hnone : (before.map (·.1)).count name = 0 ∧ (after.map (·.1)).count name = 0 := by
    simp only [List.map_append,List.map_cons,List.count_append,List.count_cons_self] at hone
    omega
  have hbefore : (name, g) ∉ before := fun hmem =>
    List.count_eq_zero.mp hnone.1 (List.mem_map_of_mem hmem)
  have hafter : (name, g) ∉ after := fun hmem =>
    List.count_eq_zero.mp hnone.2 (List.mem_map_of_mem hmem)
  obtain ⟨rfl,hsame,_⟩ := (List.append_cons_inj_of_notMem hbefore hafter).mp heq
  cases hsame
  exact ⟨rfl,rfl⟩

end Places

/-- What an edge is for. It belongs to a copy, or leads into one from the start, or out of one to the node
that the name has because it is shared. -/
inductive Serves (added : List (String × Fragment)) (finals : List NamedFinal) : Edge → Prop where
  | inside {name : String} {f : Fragment} {offset : Nat} {e : Edge} :
      Placed added name f offset → e ∈ f.edges → Serves added finals (e.rebase offset)
  | entry {name : String} {f : Fragment} {offset : Nat} :
      Placed added name f offset → Serves added finals ⟨0, f.start + offset, .epsilon⟩
  | exit {k : NamedFinal} {f : Fragment} {offset : Nat} :
      k ∈ finals → k.connected = true → Placed added k.name f offset →
        Serves added finals ⟨f.final + offset, k.node, .epsilon⟩

/-- The books after the fragments: how many nodes there are, what the final node of each name is, and what
the edges are for. -/
structure LaidOut (n : TaggedNfa) (added : List (String × Fragment)) : Prop where
  size_eq : n.size = nodesFor added
  connected_iff : ∀ k ∈ n.finals, k.connected = true ↔ 2 ≤ (added.map (·.1)).count k.name
  single : ∀ k ∈ n.finals, k.connected = false →
    ∃ f offset, Placed added k.name f offset ∧ k.node = f.final + offset
  outside : ∀ k ∈ n.finals, k.connected = true → ∀ name f offset, Placed added name f offset →
    k.node < offset ∨ offset + f.size ≤ k.node
  mem_edges : ∀ e, e ∈ n.edges ↔ Serves added n.finals e

theorem laidOut_empty : empty.LaidOut [] where
  size_eq := rfl
  connected_iff k hk := by cases hk
  single k hk := by cases hk
  outside k hk := by cases hk
  mem_edges e := by
    refine ⟨fun he => (by cases he),fun he => ?_⟩
    cases he with
    | inside hplaced _ => exact absurd hplaced not_placed_nil
    | entry hplaced => exact absurd hplaced not_placed_nil
    | exit hk _ _ => cases hk

namespace LaidOut

theorem of_target (target : NamedFinal) (h : n.LaidOut added) (hmerges : n.Merges added)
    (hsize : m.size = nodesFor (added ++ [(target.name, f)]))
    (hfinals : ∀ l, l ∈ m.finals ↔ l ∈ n.finals ∧ l.name ≠ target.name ∨ l = target)
    (hcount : target.connected = true ↔ 1 ≤ (added.map (·.1)).count target.name)
    (hsingle : target.connected = false → target.node = f.final + n.size)
    (houtside : target.connected = true → ∀ name g offset,
      Placed (added ++ [(target.name, f)]) name g offset →
        target.node < offset ∨ offset + g.size ≤ target.node)
    (hkept : ∀ l ∈ n.finals, l.name = target.name → l.connected = true → l = target)
    (hedges : ∀ e, e ∈ m.edges ↔ e ∈ n.edges ∨ (∃ k ∈ f.edges, k.rebase n.size = e) ∨
      e = ⟨0, f.start + n.size, .epsilon⟩ ∨ target.connected = true ∧
        ∃ g offset, Placed (added ++ [(target.name, f)]) target.name g offset ∧
          e = ⟨g.final + offset, target.node, .epsilon⟩) :
    m.LaidOut (added ++ [(target.name, f)]) := by
  have hnew : Placed (added ++ [(target.name, f)]) target.name f n.size :=
    placed_append.mpr (.inr ⟨rfl,rfl,h.size_eq⟩)
  constructor
  case size_eq => exact hsize
  case connected_iff =>
    intro l hl
    rw [count_names_append]
    rcases (hfinals l).mp hl with ⟨hl,hne⟩ | rfl
    · rw [if_neg hne]
      exact h.connected_iff l hl
    · rw [if_pos rfl,hcount]
      omega
  case single =>
    intro l hl hl'
    rcases (hfinals l).mp hl with ⟨hl,_⟩ | rfl
    · obtain ⟨g,offset,hplaced,hnode⟩ := h.single l hl hl'
      exact ⟨g,offset,hplaced.append _,hnode⟩
    · exact ⟨f,n.size,hnew,hsingle hl'⟩
  case outside =>
    intro l hl hl' name g offset hplaced
    rcases (hfinals l).mp hl with ⟨hl,_⟩ | rfl
    · rcases placed_append.mp hplaced with hplaced | ⟨_,_,rfl⟩
      · exact h.outside l hl hl' name g offset hplaced
      · exact .inl (h.size_eq ▸ (hmerges.final_lt l hl).1)
    · exact houtside hl' name g offset hplaced
  case mem_edges =>
    intro e
    rw [hedges]
    constructor
    · rintro (he | ⟨k,hk,rfl⟩ | rfl | ⟨hconnected,g,offset,hplaced,rfl⟩)
      · cases (h.mem_edges e).mp he with
        | inside hplaced hk => exact .inside (hplaced.append _) hk
        | entry hplaced => exact .entry (hplaced.append _)
        | @exit l g offset hl hl' hplaced =>
          refine .exit ((hfinals l).mpr ?_) hl' (hplaced.append _)
          by_cases hname : l.name = target.name
          · exact .inr (hkept l hl hname hl')
          · exact .inl ⟨hl,hname⟩
      · exact .inside hnew hk
      · exact .entry hnew
      · exact .exit ((hfinals target).mpr (.inr rfl)) hconnected hplaced
    · intro he
      cases he with
      | inside hplaced hk =>
        rcases placed_append.mp hplaced with hplaced | ⟨_,rfl,rfl⟩
        · exact .inl ((h.mem_edges _).mpr (.inside hplaced hk))
        · exact .inr (.inl ⟨_,hk,by rw [h.size_eq]⟩)
      | entry hplaced =>
        rcases placed_append.mp hplaced with hplaced | ⟨_,rfl,rfl⟩
        · exact .inl ((h.mem_edges _).mpr (.entry hplaced))
        · exact .inr (.inr (.inl (by rw [h.size_eq])))
      | @exit l g offset hl hl' hplaced =>
        rcases (hfinals l).mp hl with ⟨hl,hne⟩ | rfl
        · rcases placed_append.mp hplaced with hplaced | ⟨hname,_,_⟩
          · exact .inl ((h.mem_edges _).mpr (.exit hl hl' hplaced))
          · exact absurd hname hne
        · exact .inr (.inr (.inr ⟨hl',g,offset,hplaced,rfl⟩))

theorem add_new (h : n.LaidOut added) (hmerges : n.Merges added)
    (hnone : n.finals.find? (fun known => known.name == name) = none) :
    (n.add f name).LaidOut (added ++ [(name, f)]) := by
  have hnew : ∀ l ∈ n.finals, l.name ≠ name := by
    intro l hl
    have := List.find?_eq_none.mp hnone l hl
    simpa using this
  have hunused : (added.map (·.1)).count name = 0 := by
    refine List.count_eq_zero.mpr fun hmem => ?_
    obtain ⟨p,hp,hname⟩ := List.mem_map.mp hmem
    obtain ⟨l,hl,hl'⟩ := (hmerges.named name).mpr ⟨p,hp,hname⟩
    exact hnew l hl hl'
  rw [add_of_new hnone,hmerges.start_eq]
  refine h.of_target ⟨name, f.final + n.size, false⟩ hmerges ?_ ?_ ?_ (fun _ => rfl)
    Bool.noConfusion ?_ ?_
  · rw [nodesFor_append,← h.size_eq,hunused]
    rfl
  · intro l
    rw [List.mem_append,List.mem_singleton]
    have := hnew l
    grind
  · rw [hunused]
    exact iff_of_false Bool.false_ne_true (by decide)
  · intro l hl hname
    exact absurd hname (hnew l hl)
  · intro e
    rw [Merges.mem_edges_new]
    simp

theorem count_eq_one (h : n.LaidOut added) (hmerges : n.Merges added) (hk : k ∈ n.finals)
    (hsingle : k.connected = false) : (added.map (·.1)).count k.name = 1 := by
  have hle : ¬ 2 ≤ (added.map (·.1)).count k.name := by
    rw [← h.connected_iff k hk,hsingle]
    exact Bool.false_ne_true
  obtain ⟨p,hp,hname⟩ := (hmerges.named k.name).mp ⟨k,hk,rfl⟩
  have hpos : 0 < (added.map (·.1)).count k.name :=
    List.count_pos_iff.mpr (List.mem_map.mpr ⟨p,hp,hname⟩)
  omega

section Known

variable (h : n.LaidOut added) (hmerges : n.Merges added) (hk : k ∈ n.finals)

include h hmerges hk

theorem add_connected (hfind : n.finals.find? (fun known => known.name == k.name) = some k)
    (hconnected : k.connected = true) :
    (n.add f k.name).LaidOut (added ++ [(k.name, f)]) := by
  have hshared := (h.connected_iff k hk).mp hconnected
  have hunique : ∀ l ∈ n.finals, l.name = k.name → l = k := by
    intro l hl hname
    exact hmerges.name_inj l hl k hk hname
  rw [add_of_connected hfind hconnected,hmerges.start_eq]
  refine h.of_target k hmerges ?_ ?_ ?_ ?_ ?_ ?_ ?_
  · rw [nodesFor_append,← h.size_eq,if_neg (by omega)]
    rfl
  · intro l
    have := hunique l
    grind
  · exact iff_of_true hconnected (by omega)
  · intro hnot
    rw [hconnected] at hnot
    cases hnot
  · intro _ name g offset hplaced
    rcases placed_append.mp hplaced with hplaced | ⟨_,_,rfl⟩
    · exact h.outside k hk hconnected name g offset hplaced
    · exact .inl (h.size_eq ▸ (hmerges.final_lt k hk).1)
  · intro l hl hname _
    exact hunique l hl hname
  · intro e
    rw [EdgeList.mem_addEpsilon,EdgeList.mem_addEpsilon,EdgeList.mem_copyFrom]
    constructor
    · rintro (((he | he) | rfl) | rfl)
      · exact .inl he
      · exact .inr (.inl he)
      · exact .inr (.inr (.inr ⟨hconnected,f,n.size,
          placed_append.mpr (.inr ⟨rfl,rfl,h.size_eq⟩),rfl⟩))
      · exact .inr (.inr (.inl rfl))
    · rintro (he | he | rfl | ⟨_,g,offset,hplaced,rfl⟩)
      · exact .inl (.inl (.inl he))
      · exact .inl (.inl (.inr he))
      · exact .inr rfl
      · rcases placed_append.mp hplaced with hplaced | ⟨_,rfl,rfl⟩
        · exact .inl (.inl (.inl ((h.mem_edges _).mpr (.exit hk hconnected hplaced))))
        · exact .inl (.inr (by rw [h.size_eq]))

theorem add_single (hfind : n.finals.find? (fun known => known.name == k.name) = some k)
    (hsingle : k.connected = false) :
    (n.add f k.name).LaidOut (added ++ [(k.name, f)]) := by
  have hone := h.count_eq_one hmerges hk hsingle
  obtain ⟨g,place,hplaced,hnode⟩ := h.single k hk hsingle
  have hunique : ∀ l ∈ n.finals, l.name = k.name → l = k := by
    intro l hl hname
    exact hmerges.name_inj l hl k hk hname
  rw [add_of_single hfind hsingle,hmerges.start_eq]
  refine h.of_target ⟨k.name, n.size + f.size, true⟩ hmerges ?_ ?_ ?_
    Bool.noConfusion ?_ ?_ ?_
  · rw [nodesFor_append,← h.size_eq,if_pos hone]
    rfl
  · intro l
    simp only [List.mem_map]
    grind
  · exact iff_of_true rfl hone.ge
  · intro _ name f' offset hplaced
    rcases placed_append.mp hplaced with hplaced | ⟨_,rfl,rfl⟩
    · have hle := hplaced.le
      rw [← h.size_eq] at hle
      exact .inr (by dsimp only; omega)
    · exact .inr (by rw [h.size_eq])
  · intro l hl hname hl'
    rw [hunique l hl hname,hsingle] at hl'
    cases hl'
  · intro e
    rw [EdgeList.mem_addEpsilon,EdgeList.mem_addEpsilon,EdgeList.mem_addEpsilon,
      EdgeList.mem_copyFrom]
    constructor
    · rintro ((((he | he) | rfl) | rfl) | rfl)
      · exact .inl he
      · exact .inr (.inl he)
      · exact .inr (.inr (.inr ⟨rfl,g,place,hplaced.append _,by rw [hnode]⟩))
      · exact .inr (.inr (.inr ⟨rfl,f,n.size,placed_append.mpr (.inr ⟨rfl,rfl,h.size_eq⟩),rfl⟩))
      · exact .inr (.inr (.inl rfl))
    · rintro (he | he | rfl | ⟨_,f',offset,hplaced',rfl⟩)
      · exact .inl (.inl (.inl (.inl he)))
      · exact .inl (.inl (.inl (.inr he)))
      · exact .inr rfl
      · rcases placed_append.mp hplaced' with hplaced' | ⟨_,rfl,rfl⟩
        · obtain ⟨rfl,rfl⟩ := hplaced.unique hplaced' hone
          exact .inl (.inl (.inr (by rw [hnode])))
        · exact .inl (.inr (by rw [h.size_eq]))

end Known

theorem add (h : n.LaidOut added) (hmerges : n.Merges added) (f : Fragment) (name : String) :
    (n.add f name).LaidOut (added ++ [(name, f)]) := by
  cases hfind : n.finals.find? (fun known => known.name == name) with
  | none => exact h.add_new hmerges hfind
  | some k =>
    have hk := List.mem_of_find?_eq_some hfind
    have hname : k.name = name := by simpa using List.find?_some hfind
    subst hname
    cases hconnected : k.connected with
    | true => exact h.add_connected hmerges hk hfind hconnected
    | false => exact h.add_single hmerges hk hfind hconnected

section Ends

variable (h : n.LaidOut added) (hmerges : n.Merges added) (hwf : ∀ p ∈ added, p.2.WellFormed)

include h hmerges hwf

/-- The node of a shared name is entered from the final nodes of its copies and from nowhere else. -/
theorem enters_iff (hk : k ∈ n.finals) (hconnected : k.connected = true) :
    e ∈ n.edges ∧ e.target = k.node ↔
      ∃ f offset, Placed added k.name f offset ∧ e = ⟨f.final + offset, k.node, .epsilon⟩ := by
  constructor
  · rintro ⟨he,htarget⟩
    cases (h.mem_edges e).mp he with
    | @inside name f offset l hplaced hl =>
      have hlt := ((hplaced.wellFormed hwf).bounded l hl).2
      have := h.outside k hk hconnected name f offset hplaced
      simp only [Edge.rebase] at htarget
      omega
    | @entry name f offset hplaced =>
      have hlt := (hplaced.wellFormed hwf).start_lt
      have := h.outside k hk hconnected name f offset hplaced
      dsimp only at htarget
      omega
    | @exit l f offset hl _ hplaced =>
      obtain rfl := hmerges.node_inj l hl k hk htarget
      exact ⟨f,offset,hplaced,rfl⟩
  · rintro ⟨f,offset,hplaced,rfl⟩
    exact ⟨(h.mem_edges _).mpr (.exit hk hconnected hplaced),rfl⟩

theorem final_cases (hk : k ∈ n.finals) :
    ((added.map (·.1)).count k.name = 1 ∧
      ∃ f offset, Placed added k.name f offset ∧ k.node = f.final + offset) ∨
    (k.name ∈ sharedNames added ∧ k.connected = true ∧ (∀ e ∈ n.edges, e.source ≠ k.node) ∧
      (∀ name f offset, Placed added name f offset → k.node ∉ Set.Ico offset (offset + f.size)) ∧
      ∀ e, e ∈ n.edges ∧ e.target = k.node ↔
        ∃ f offset, Placed added k.name f offset ∧ e = ⟨f.final + offset, k.node, .epsilon⟩) := by
  cases hconnected : k.connected with
  | false => exact .inl ⟨h.count_eq_one hmerges hk hconnected,h.single k hk hconnected⟩
  | true =>
    have hshared := mem_sharedNames.mpr ((h.connected_iff k hk).mp hconnected)
    refine .inr ⟨hshared,rfl,hmerges.sink k hk hconnected,?_,
      fun e => h.enters_iff hmerges hwf hk hconnected⟩
    intro name f offset hplaced
    have := h.outside k hk hconnected name f offset hplaced
    rw [Set.mem_Ico]
    omega

/-- What an edge is for, with both ends of an inner edge among the nodes of its copy. -/
theorem mem_edges_iff :
    e ∈ n.edges ↔
      (∃ name f offset, Placed added name f offset ∧ (∃ k ∈ f.edges, k.rebase offset = e) ∧
        e.source ∈ Set.Ico offset (offset + f.size) ∧
        e.target ∈ Set.Ico offset (offset + f.size)) ∨
      (∃ name f offset, Placed added name f offset ∧ e = ⟨n.start, f.start + offset, .epsilon⟩) ∨
      ∃ k ∈ n.finals, k.connected = true ∧
        ∃ f offset, Placed added k.name f offset ∧ e = ⟨f.final + offset, k.node, .epsilon⟩ := by
  rw [h.mem_edges,hmerges.start_eq]
  constructor
  · intro he
    cases he with
    | @inside name f offset l hplaced hl =>
      obtain ⟨hsource,htarget⟩ := (hplaced.wellFormed hwf).bounded l hl
      refine .inl ⟨name,f,offset,hplaced,⟨l,hl,rfl⟩,?_,?_⟩
      all_goals
        rw [Set.mem_Ico]
        dsimp only [Edge.rebase]
        omega
    | @entry name f offset hplaced => exact .inr (.inl ⟨name,f,offset,hplaced,rfl⟩)
    | @exit k f offset hk hconnected hplaced =>
      exact .inr (.inr ⟨k,hk,hconnected,f,offset,hplaced,rfl⟩)
  · rintro (⟨name,f,offset,hplaced,⟨l,hl,rfl⟩,_⟩ | ⟨name,f,offset,hplaced,rfl⟩ |
      ⟨k,hk,hconnected,f,offset,hplaced,rfl⟩)
    · exact .inside hplaced hl
    · exact .entry hplaced
    · exact .exit hk hconnected hplaced

end Ends

end LaidOut

theorem laidOut_addAll (h : ∀ p ∈ added, p.2.WellFormed) : (addAll added).LaidOut added := by
  induction added using List.reverseRecOn with
  | nil => exact laidOut_empty
  | append_singleton added p ih =>
    have hbefore : ∀ q ∈ added, q.2.WellFormed := fun q hq => h q (List.mem_append_left _ hq)
    rw [addAll_concat]
    exact (ih hbefore).add (merges_addAll hbefore) p.2 p.1

/-- After any fragments under any names. There is the start, a node for each node of a fragment, and one for
each shared name; the copies stand one after the other. The final nodes stand for the names in the order of
their first fragments: a name of one fragment has the copy of its final node, a shared name has a node
outside of all copies that no edge leaves and that empty moves from exactly the final nodes of its copies
enter. The edges are those of the copies, those from the start to the start of each copy, and those from
the final node of each copy to the node of its shared name. -/
theorem addAll_layout (added : List (String × Fragment)) (h : ∀ p ∈ added, p.2.WellFormed) :
    let n := addAll added
    n.size = 1 + (added.map fun p => p.2.size).sum + (sharedNames added).card ∧
    (∀ name f offset, Placed added name f offset → 0 < offset ∧ offset + f.size ≤ n.size ∧
      ∀ other g place, Placed added other g place →
        (name = other ∧ f = g ∧ offset = place) ∨ offset + f.size ≤ place ∨ place + g.size ≤ offset) ∧
    n.finals.map (·.name) = (added.map (·.1)).eraseDups ∧
    (∀ k ∈ n.finals,
      ((added.map (·.1)).count k.name = 1 ∧
        ∃ f offset, Placed added k.name f offset ∧ k.node = f.final + offset) ∨
      (k.name ∈ sharedNames added ∧ k.connected = true ∧ (∀ e ∈ n.edges, e.source ≠ k.node) ∧
        (∀ name f offset, Placed added name f offset → k.node ∉ Set.Ico offset (offset + f.size)) ∧
        ∀ e, e ∈ n.edges ∧ e.target = k.node ↔
          ∃ f offset, Placed added k.name f offset ∧ e = ⟨f.final + offset, k.node, .epsilon⟩)) ∧
    ∀ e, e ∈ n.edges ↔
      (∃ name f offset, Placed added name f offset ∧ (∃ k ∈ f.edges, k.rebase offset = e) ∧
        e.source ∈ Set.Ico offset (offset + f.size) ∧
        e.target ∈ Set.Ico offset (offset + f.size)) ∨
      (∃ name f offset, Placed added name f offset ∧ e = ⟨n.start, f.start + offset, .epsilon⟩) ∨
      ∃ k ∈ n.finals, k.connected = true ∧
        ∃ f offset, Placed added k.name f offset ∧ e = ⟨f.final + offset, k.node, .epsilon⟩ := by
  intro n
  have hmerges := merges_addAll h
  have hlaid := laidOut_addAll h
  refine ⟨hlaid.size_eq,?_,names_addAll added,fun k => hlaid.final_cases hmerges h,
    fun e => hlaid.mem_edges_iff hmerges h⟩
  intro name f offset hplaced
  exact ⟨hplaced.pos,hlaid.size_eq ▸ hplaced.le,fun other g place => hplaced.same_or_apart⟩

/-- A name comes back after another one: its second fragment brings a node behind both copies. -/
theorem addAll_layout_of_shared_name :
    let added := [("id", Fragment.ofSet (.singleton 97)), ("num", .plus (.ofSet (.range 48 57))),
      ("id", .ofSet (.singleton 98))]
    let n := addAll added
    (∀ p ∈ added, p.2.WellFormed) ∧ n.size = 10 ∧ n.finals.map (·.name) = ["id", "num"] ∧
      ⟨"id", 9, true⟩ ∈ n.finals ∧ (∀ e ∈ n.edges, e.source ≠ 9) ∧
      Placed added "id" (.ofSet (.singleton 98)) 7 ∧ ⟨8, 9, .epsilon⟩ ∈ n.edges := by
  intro added n
  have hwf : ∀ p ∈ added, p.2.WellFormed := by
    intro p hp
    simp only [added,List.mem_cons,List.not_mem_nil,or_false] at hp
    rcases hp with rfl | rfl | rfl
    · exact .ofSet _
    · exact .plus (.ofSet _)
    · exact .ofSet _
  obtain ⟨hsize,_,hnames,hfinals,hedges⟩ := addAll_layout added hwf
  have hmem : ⟨"id", 9, true⟩ ∈ n.finals := by decide +kernel
  have hplaced : Placed added "id" (.ofSet (.singleton 98)) 7 :=
    ⟨[("id", .ofSet (.singleton 97)), ("num", .plus (.ofSet (.range 48 57)))],[],rfl,by decide +kernel⟩
  refine ⟨hwf,?_,?_,hmem,?_,hplaced,?_⟩
  · rw [hsize]
    decide +kernel
  · rw [hnames]
    decide +kernel
  · rcases hfinals _ hmem with ⟨hone,_⟩ | ⟨_,_,hleaves,_⟩
    · exact absurd hone (by decide +kernel)
    · exact hleaves
  · exact (hedges _).mpr (.inr (.inr ⟨_,hmem,rfl,_,7,hplaced,rfl⟩))

end LexAutomata.TaggedNfa
