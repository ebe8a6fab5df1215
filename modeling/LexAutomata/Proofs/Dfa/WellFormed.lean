import LexAutomata.Proofs.Dfa.Projection

namespace LexAutomata.Dfa

variable {d m : Dfa} {f : Nat → Nat} {blocks : Partition} {byName : Bool} {block : NodeSet}

/-- Every transition is on some byte and no byte has two of them, all nodes are reached, and no name
stands twice at a node. -/
structure WellFormed (d : Dfa) : Prop where
  nonempty : ∀ n ∈ d.nodes, ∀ t ∈ n.transitions, ∃ x, t.label.test x = true
  disjoint : ∀ n ∈ d.nodes, n.transitions.Pairwise fun s t =>
    ∀ x, s.label.test x = true → t.label.test x = false
  target_lt : ∀ n ∈ d.nodes, ∀ t ∈ n.transitions, t.target < d.size
  reached : ∀ i < d.size, ∃ w, d.follow? d.start w = some i
  nodup_names : ∀ n ∈ d.nodes, n.names.Nodup

/-- From every node some word leads to a final node. -/
def Productive (d : Dfa) : Prop :=
  ∀ i < d.size, ∃ w target, d.follow? i w = some target ∧ d.isFinal target = true

theorem WellFormed.deterministic (h : d.WellFormed) : d.Deterministic := fun n hn =>
  (h.disjoint n hn).imp ByteSet.isDisjoint_iff.mpr

section Projected

theorem Projects.reached (h : d.Projects m f) (hd : ∀ i < d.size, ∃ w, d.follow? d.start w = some i) :
    ∀ k < m.size, ∃ w, m.follow? m.start w = some k := by
  intro k hk
  obtain ⟨i,hi,rfl⟩ := h.onto k hk
  obtain ⟨w,hw⟩ := hd i hi
  refine ⟨w,?_⟩
  rw [h.start_eq,h.follow?_eq d.start_lt,hw]
  rfl

theorem Projects.productive (h : d.Projects m f) (hd : d.Productive) : m.Productive := by
  intro k hk
  obtain ⟨i,hi,rfl⟩ := h.onto k hk
  obtain ⟨w,target,hw,hfinal⟩ := hd i hi
  refine ⟨w,f target,?_,?_⟩
  · rw [h.follow?_eq hi,hw]
    rfl
  · rw [h.isFinal_eq target (follow?_lt hi hw)]
    exact hfinal

end Projected

section Merged

theorem nonempty_mergeBlock (hd : ∀ n ∈ d.nodes, ∀ t ∈ n.transitions, ∃ x, t.label.test x = true) :
    ∀ t ∈ (d.mergeBlock byName f block).transitions, ∃ x, t.label.test x = true := by
  refine transitions_mergeBlock_induction (P := fun ts => ∀ t ∈ ts, ∃ x, t.label.test x = true)
    (List.forall_mem_nil _) fun ts n t hts hn ht => ?_
  refine forall_mem_addTransition hts (hd n hn t ht) fun u hu => ?_
  obtain ⟨x,hx⟩ := hts u hu
  exact ⟨x,by rw [ByteSet.test_union,hx,Bool.true_or]⟩

theorem mem_targets_addTransition {ts : List Transition} {label : ByteSet} {target k : Nat} :
    k ∈ (addTransition label target ts).map (·.target) ↔ k ∈ ts.map (·.target) ∨ k = target := by
  induction ts with
  | nil => simp [addTransition]
  | cons u ts ih =>
    rw [addTransition]
    split <;> grind

theorem nodup_targets_addTransition {ts : List Transition} (label : ByteSet) (target : Nat)
    (hts : (ts.map (·.target)).Nodup) : ((addTransition label target ts).map (·.target)).Nodup := by
  induction ts with
  | nil => simp [addTransition]
  | cons u ts ih =>
    rw [List.map_cons,List.nodup_cons] at hts
    rw [addTransition]
    split
    · rename_i htarget
      rw [List.map_cons,List.nodup_cons,← htarget]
      exact hts
    · rename_i htarget
      rw [List.map_cons,List.nodup_cons,mem_targets_addTransition]
      exact ⟨fun h => h.elim hts.1 htarget,ih hts.2⟩

theorem nodup_targets_mergeBlock (d : Dfa) (byName : Bool) (f : Nat → Nat) (block : NodeSet) :
    ((d.mergeBlock byName f block).transitions.map (·.target)).Nodup := by
  refine transitions_mergeBlock_induction (P := fun ts => (ts.map (·.target)).Nodup) List.nodup_nil
    fun ts n t hts _ _ => ?_
  exact nodup_targets_addTransition _ _ hts

/-- All transitions of a merged node on one byte go to the block that its nodes go to. -/
theorem disjoint_mergeBlock (hd : d.Deterministic) (h : d.Divided blocks) (hstable : d.Stable blocks)
    (hblock : block ∈ blocks.sets) :
    (d.mergeBlock byName (blockOf blocks) block).transitions.Pairwise fun s t =>
      ∀ x, s.label.test x = true → t.label.test x = false := by
  obtain ⟨id,hid⟩ := h.nonempty block hblock
  have htargets := nodup_targets_mergeBlock d byName (blockOf blocks) block
  -- a byte on two labels would lead to two targets, but the nodes of a block agree on one
  refine (List.pairwise_map.mp htargets).imp_of_mem fun {s t} hs ht hne x hsx => ?_
  rw [← Bool.not_eq_true]
  intro htx
  have hfirst := map_next?_of_moves hd h hstable hblock hid ⟨s,hs,rfl,hsx⟩
  have hsecond := map_next?_of_moves hd h hstable hblock hid ⟨t,ht,rfl,htx⟩
  rw [hfirst] at hsecond
  exact hne (Option.some.inj hsecond)

theorem nodup_mergeNames {names more : List String} (hnames : names.Nodup) (hmore : more.Nodup) :
    (mergeNames byName names more).Nodup := by
  unfold mergeNames
  split
  · exact hmore
  · split
    · exact hnames
    · refine List.foldlRecOn _ _ hnames fun acc hacc name _ => ?_
      split
      · exact hacc
      · rename_i hnew
        rw [← List.concat_eq_append]
        exact hacc.concat fun hname => hnew (List.contains_iff_mem.mpr hname)

theorem nodup_names_mergeBlock (hd : ∀ n ∈ d.nodes, n.names.Nodup) :
    (d.mergeBlock byName f block).names.Nodup :=
  mergeBlock_induction (P := fun n => n.names.Nodup) List.nodup_nil
    fun _ n hmerged hn => nodup_mergeNames hmerged (hd n hn)

theorem names_mergeBlock_by_name :
    (d.mergeBlock true f block).names = [] ∨
      ∃ n ∈ d.nodes, (d.mergeBlock true f block).names = n.names := by
  refine mergeBlock_induction (P := fun m => m.names = [] ∨ ∃ n ∈ d.nodes, m.names = n.names)
    (.inl rfl) fun merged n hmerged hn => ?_
  rw [absorb,mergeNames]
  split
  · exact .inr ⟨n,hn,rfl⟩
  · exact hmerged

end Merged

/-- Minimization keeps an automaton well formed and, with names told apart, takes the names of every node
from the given one. -/
theorem WellFormed.exists_minimize (h : d.WellFormed) (byName : Bool) :
    ∃ m, d.minimize byName = .ok m ∧ m.dfa.WellFormed ∧ (d.Productive → m.dfa.Productive) ∧
      (byName = true → ∀ n ∈ m.dfa.nodes, n.names = [] ∨ ∃ k ∈ d.nodes, n.names = k.names) := by
  obtain ⟨m,blocks,hm,hdivided,hrefines,hstable,hmerged⟩ := exists_minimize_blocks d byName
  refine ⟨m,hm,?_⟩
  rcases hmerged with ⟨hsame,_⟩ | ⟨hnodes,hstart⟩
  · rw [hsame]
    exact ⟨h,id,fun _ n hn => .inr ⟨n,hn,rfl⟩⟩
  · have halike := fun i j => alike_of_refines (i := i) (j := j) hrefines
    have hprojects := projects_quotient h.deterministic hdivided hstable halike hnodes hstart
    have hnode : ∀ n ∈ m.dfa.nodes,
        ∃ block ∈ blocks.sets, n = d.mergeBlock byName (blockOf blocks) block := by
      intro n hn
      rw [hnodes] at hn
      obtain ⟨block,hblock,rfl⟩ := List.mem_map.mp hn
      exact ⟨block,hblock,rfl⟩
    refine ⟨⟨?_,?_,m.dfa.target_lt,hprojects.reached h.reached,?_⟩,hprojects.productive,?_⟩
    · intro n hn
      obtain ⟨block,_,rfl⟩ := hnode n hn
      exact nonempty_mergeBlock h.nonempty
    · intro n hn
      obtain ⟨block,hblock,rfl⟩ := hnode n hn
      exact disjoint_mergeBlock h.deterministic hdivided hstable hblock
    · intro n hn
      obtain ⟨block,_,rfl⟩ := hnode n hn
      exact nodup_names_mergeBlock h.nodup_names
    · rintro rfl n hn
      obtain ⟨block,_,rfl⟩ := hnode n hn
      exact names_mergeBlock_by_name

end LexAutomata.Dfa
