import LexAutomata.Dfa.Minimize
import LexAutomata.Proofs.Dfa.Refinement

namespace LexAutomata

section Transitions

variable {ts : List Transition} {label : ByteSet} {x : UInt8} {k target : Nat}

/-- Some transition to `target` is on the byte. -/
def Moves (ts : List Transition) (x : UInt8) (target : Nat) : Prop :=
  ∃ t ∈ ts, t.target = target ∧ t.label.test x = true

theorem moves_cons {t : Transition} :
    Moves (t :: ts) x k ↔ t.target = k ∧ t.label.test x = true ∨ Moves ts x k := by
  simp [Moves]

theorem Dfa.moves_addTransition :
    Moves (addTransition label target ts) x k ↔
      Moves ts x k ∨ target = k ∧ label.test x = true := by
  induction ts with
  | nil => simp [addTransition,Moves]
  | cons t ts ih =>
    rw [addTransition]
    by_cases h : t.target = target
    · rw [if_pos h,moves_cons,moves_cons,ByteSet.test_union,Bool.or_eq_true]
      dsimp only
      rw [h]
      tauto
    · rw [if_neg h,moves_cons,moves_cons,ih,or_assoc]

theorem DfaNode.moves_of_next? {n : DfaNode} (h : n.next? x = some k) : Moves n.transitions x k := by
  obtain ⟨t,ht,hk⟩ := Option.map_eq_some_iff.mp h
  exact ⟨t,List.mem_of_find?_eq_some ht,hk,List.find?_some (p := fun t : Transition => t.label.test x) ht⟩

theorem DfaNode.next?_isSome_of_moves {n : DfaNode} (h : Moves n.transitions x k) :
    ∃ target, n.next? x = some target := by
  obtain ⟨t,ht,_,hx⟩ := h
  cases hfind : n.transitions.find? (·.label.test x) with
  | none => exact absurd hx (List.find?_eq_none.mp hfind t ht)
  | some u => exact ⟨u.target,by rw [DfaNode.next?,hfind]; rfl⟩

/-- Disjoint labels leave one target for each byte. -/
theorem DfaNode.Deterministic.next?_eq_some_iff {n : DfaNode} (h : n.Deterministic) :
    n.next? x = some k ↔ Moves n.transitions x k := by
  constructor
  · exact moves_of_next?
  · intro hmoves
    obtain ⟨target,hnext⟩ := next?_isSome_of_moves hmoves
    obtain ⟨t,ht,hk,hx⟩ := hmoves
    obtain ⟨u,hu,htarget,hx'⟩ := moves_of_next? hnext
    have hsymm : Std.Symm fun s t : Transition => s.label.isDisjoint t.label = true :=
      ⟨fun _ _ => ByteSet.isDisjoint_symm⟩
    by_cases hsame : t = u
    · rw [hnext,← hk,← htarget,hsame]
    · have hdisjoint := ByteSet.isDisjoint_iff.mp (h.forall ht hu hsame) x hx
      rw [hx'] at hdisjoint
      cases hdisjoint

end Transitions

namespace Dfa

variable {d : Dfa} {byName : Bool} {f : Nat → Nat} {block : NodeSet} {x : UInt8} {k : Nat}

section Merged

theorem moves_foldl_addTransition {ts acc : List Transition} :
    Moves (ts.foldl (fun ts t => addTransition t.label (f t.target) ts) acc) x k ↔
      Moves acc x k ∨ ∃ t ∈ ts, f t.target = k ∧ t.label.test x = true := by
  induction ts generalizing acc with
  | nil => simp
  | cons t ts ih =>
    rw [List.foldl_cons,ih,moves_addTransition,or_assoc]
    simp

theorem moves_foldl_absorb {ns : List DfaNode} {merged : DfaNode} :
    Moves (ns.foldl (absorb byName f) merged).transitions x k ↔
      Moves merged.transitions x k ∨
        ∃ n ∈ ns, ∃ t ∈ n.transitions, f t.target = k ∧ t.label.test x = true := by
  induction ns generalizing merged with
  | nil => simp
  | cons n ns ih =>
    rw [List.foldl_cons,ih,absorb,moves_foldl_addTransition,or_assoc]
    simp

theorem mem_members {n : DfaNode} :
    n ∈ block.toList.filterMap d.node? ↔ ∃ i, block.contains i = true ∧ d.node? i = some n := by
  simp only [List.mem_filterMap,NodeSet.mem_toList]

theorem moves_mergeBlock :
    Moves (d.mergeBlock byName f block).transitions x k ↔
      ∃ i n t, block.contains i = true ∧ d.node? i = some n ∧ t ∈ n.transitions ∧
        f t.target = k ∧ t.label.test x = true := by
  have hnone : ¬ Moves DfaNode.empty.transitions x k := by
    intro hmoves
    obtain ⟨t,ht,_⟩ := hmoves
    cases ht
  rw [mergeBlock,moves_foldl_absorb]
  constructor
  · intro hmoves
    obtain ⟨n,hn,t,ht,hk,hx⟩ := hmoves.resolve_left hnone
    obtain ⟨i,hi,hni⟩ := mem_members.mp hn
    exact ⟨i,n,t,hi,hni,ht,hk,hx⟩
  · intro hmember
    obtain ⟨i,n,t,hi,hni,ht,hk,hx⟩ := hmember
    exact .inr ⟨n,mem_members.mpr ⟨i,hi,hni⟩,t,ht,hk,hx⟩

theorem mem_foldl_append_new {more names : List String} {name : String} :
    name ∈ more.foldl (fun acc n => if acc.contains n then acc else acc ++ [n]) names ↔
      name ∈ names ∨ name ∈ more := by
  induction more generalizing names with
  | nil => simp
  | cons m more ih =>
    rw [List.foldl_cons,ih]
    grind

theorem mem_mergeNames {names more : List String} {name : String}
    (h : byName = true → ∀ a ∈ names, ∀ b, b ∈ more → b ∈ names) :
    name ∈ mergeNames byName names more ↔ name ∈ names ∨ name ∈ more := by
  unfold mergeNames
  cases names with
  | nil => simp
  | cons first rest =>
    rw [List.isEmpty_cons,if_neg Bool.false_ne_true]
    cases byName with
    | false => exact mem_foldl_append_new
    | true =>
      rw [if_pos rfl]
      have hsub := h rfl first List.mem_cons_self name
      tauto

/-- When names count, the nodes of a block must all have the names `Shared`. -/
theorem mem_names_foldl_absorb {ns : List DfaNode} {merged : DfaNode} {name : String}
    (Shared : String → Prop) (hns : byName = true → ∀ n ∈ ns, ∀ a, a ∈ n.names ↔ Shared a)
    (hmerged : byName = true → ∀ a ∈ merged.names, ∀ b, Shared b → b ∈ merged.names) :
    name ∈ (ns.foldl (absorb byName f) merged).names ↔
      name ∈ merged.names ∨ ∃ n ∈ ns, name ∈ n.names := by
  induction ns generalizing merged with
  | nil => simp
  | cons n ns ih =>
    have hnames : ∀ a, a ∈ (absorb byName f merged n).names ↔ a ∈ merged.names ∨ a ∈ n.names := by
      intro a
      refine mem_mergeNames fun hbyName b hb c hc => ?_
      exact hmerged hbyName b hb c ((hns hbyName n List.mem_cons_self c).mp hc)
    rw [List.foldl_cons,ih (fun hbyName m hm => hns hbyName m (List.mem_cons_of_mem _ hm)) ?_,
      hnames,or_assoc]
    · simp
    · intro hbyName a _ b hb
      exact (hnames b).mpr (.inr ((hns hbyName n List.mem_cons_self b).mpr hb))

/-- A merged node has the names of the nodes of its block, which are the same for all of them if they
were told apart by their names. -/
theorem mem_names_mergeBlock {name : String}
    (h : byName = true → ∀ i j, block.contains i = true → block.contains j = true →
      ∀ name, name ∈ d.names i ↔ name ∈ d.names j) :
    name ∈ (d.mergeBlock byName f block).names ↔
      ∃ i, block.contains i = true ∧ name ∈ d.names i := by
  rw [mergeBlock,mem_names_foldl_absorb fun a => ∃ i, block.contains i = true ∧ a ∈ d.names i]
  · simp only [mem_members]
    constructor
    · intro hname
      rcases hname with hname | ⟨n,⟨i,hi,hn⟩,hname⟩
      · cases hname
      · exact ⟨i,hi,by rwa [names_of_node? hn]⟩
    · intro hmember
      obtain ⟨i,hi,hname⟩ := hmember
      cases hn : d.node? i with
      | none =>
        rw [names,hn] at hname
        cases hname
      | some n => exact .inr ⟨n,⟨i,hi,hn⟩,by rwa [names_of_node? hn] at hname⟩
  · intro hbyName n hn a
    obtain ⟨i,hi,hni⟩ := mem_members.mp hn
    rw [← names_of_node? hni]
    constructor
    · intro ha
      exact ⟨i,hi,ha⟩
    · intro hmember
      obtain ⟨j,hj,ha⟩ := hmember
      exact (h hbyName j i hj hi a).mp ha
  · intro _ a ha
    cases ha

/-- What holds of a node without transitions and names, and is kept when a node is taken in, holds of
every merged node. -/
theorem mergeBlock_induction {P : DfaNode → Prop} (hempty : P .empty)
    (habsorb : ∀ merged n, P merged → n ∈ d.nodes → P (absorb byName f merged n)) :
    P (d.mergeBlock byName f block) := by
  refine List.foldlRecOn _ _ hempty fun merged hmerged n hn => habsorb merged n hmerged ?_
  obtain ⟨i,_,hni⟩ := mem_members.mp hn
  exact List.mem_of_getElem? hni

theorem transitions_mergeBlock_induction {P : List Transition → Prop} (hnil : P [])
    (hadd : ∀ ts n t, P ts → n ∈ d.nodes → t ∈ n.transitions →
      P (addTransition t.label (f t.target) ts)) :
    P (d.mergeBlock byName f block).transitions :=
  mergeBlock_induction (P := fun n => P n.transitions) hnil fun _ n hmerged hn =>
    List.foldlRecOn (motive := P) _ _ hmerged fun ts hts t ht => hadd ts n t hts hn ht

theorem forall_mem_addTransition {Q : Transition → Prop} {ts : List Transition} {label : ByteSet}
    {target : Nat} (hts : ∀ t ∈ ts, Q t) (hnew : Q ⟨label, target⟩)
    (hunion : ∀ t ∈ ts, Q ⟨t.label.union label, target⟩) :
    ∀ t ∈ addTransition label target ts, Q t := by
  induction ts with
  | nil => simpa [addTransition] using hnew
  | cons u ts ih =>
    rw [List.forall_mem_cons] at hts hunion
    rw [addTransition]
    split
    · exact List.forall_mem_cons.mpr ⟨hunion.1,hts.2⟩
    · exact List.forall_mem_cons.mpr ⟨hts.1,ih hts.2 hunion.2⟩

theorem target_mergeBlock {P : Nat → Prop} (h : ∀ id < d.size, P (f id)) :
    ∀ t ∈ (d.mergeBlock byName f block).transitions, P t.target := by
  refine transitions_mergeBlock_induction (P := fun ts => ∀ t ∈ ts, P t.target)
    (List.forall_mem_nil _) fun ts n t hts hn ht => ?_
  have htarget := h _ (d.target_lt n hn t ht)
  exact forall_mem_addTransition hts htarget fun _ _ => htarget

end Merged

section Numbering

variable {blocks : Partition} {id i j : Nat}

def blockOf (blocks : Partition) (id : Nat) : Nat := (blocks.holding? id).getD 0

theorem Divided.holding?_eq (h : d.Divided blocks) (hid : id < d.size) :
    blocks.holding? id = some (blockOf blocks id) := by
  obtain ⟨k,hk⟩ := NodeSet.Table.exists_holding? h hid
  rw [blockOf,hk]
  rfl

theorem Divided.exists_get? (h : d.Divided blocks) (hid : id < d.size) :
    ∃ block, blocks.get? (blockOf blocks id) = some block ∧ block.contains id = true :=
  (NodeSet.Table.holding?_eq_some_iff h).mp (h.holding?_eq hid)

theorem Divided.blockOf_lt (h : d.Divided blocks) (hid : id < d.size) :
    blockOf blocks id < blocks.size := by
  obtain ⟨block,hblock,_⟩ := h.exists_get? hid
  exact (List.getElem?_eq_some_iff.mp hblock).1

theorem Divided.contains_iff (h : d.Divided blocks) (hk : blocks.get? k = some block) :
    block.contains id = true ↔ id < d.size ∧ blockOf blocks id = k := by
  constructor
  · intro hid
    have hholding := (NodeSet.Table.holding?_eq_some_iff h).mpr ⟨block,hk,hid⟩
    refine ⟨(h.covers id).mp ⟨block,List.mem_of_getElem? hk,hid⟩,?_⟩
    rw [blockOf,hholding]
    rfl
  · intro hfrom
    obtain ⟨hid,heq⟩ := hfrom
    obtain ⟨other,hother,hcontains⟩ := h.exists_get? hid
    rw [heq,hk] at hother
    rw [Option.some.inj hother]
    exact hcontains

theorem Divided.blockOf_eq_iff (h : d.Divided blocks) (hi : i < d.size) (hj : j < d.size) :
    blockOf blocks i = blockOf blocks j ↔ NodeSet.Joined blocks.sets i j := by
  rw [NodeSet.Table.joined_iff_holding? h hi,h.holding?_eq hi,h.holding?_eq hj,Option.some.injEq]

theorem Divided.renumber_eq (h : d.Divided blocks) :
    (fun id => ((blockNumbers d.size 0 blocks.sets)[id]?.join).getD 0) = blockOf blocks := by
  funext id
  by_cases hid : id < d.size
  · rw [getElem?_blockNumbers hid,blockOf,NodeSet.Table.holding?]
    simp
  · have hnone : blocks.holding? id = none := by
      apply List.findIdx?_eq_none_iff.mpr
      intro s hs
      by_contra hcontains
      exact hid ((h.covers id).mp ⟨s,hs,Bool.not_eq_false _ ▸ hcontains⟩)
    rw [blockOf,hnone,Array.getElem?_eq_none (by rw [size_blockNumbers]; omega)]
    rfl

theorem Divided.enters?_eq (h : d.Divided blocks) :
    d.enters? blocks x id = (d.next? id x).map (blockOf blocks) := by
  rw [enters?]
  cases hnext : d.next? id x with
  | none => rfl
  | some target => exact h.holding?_eq (next?_lt hnext)

theorem exists_quotient (h : d.Divided blocks) (byName : Bool) :
    ∃ m, d.quotient byName blocks = .ok m ∧
      m.nodes = blocks.sets.map (d.mergeBlock byName (blockOf blocks)) ∧
      m.start = blockOf blocks d.start := by
  have hlt : ∀ id < d.size, blockOf blocks id < (blocks.sets.map
      (d.mergeBlock byName (blockOf blocks))).length := by
    intro id hid
    rw [List.length_map]
    exact h.blockOf_lt hid
  have htargets : ∀ n ∈ blocks.sets.map (d.mergeBlock byName (blockOf blocks)), ∀ t ∈ n.transitions,
      t.target < (blocks.sets.map (d.mergeBlock byName (blockOf blocks))).length := by
    intro n hn
    obtain ⟨block,_,rfl⟩ := List.mem_map.mp hn
    exact target_mergeBlock (P := fun target => target < _) hlt
  refine ⟨⟨_,_,hlt _ d.start_lt,htargets⟩,?_,rfl,rfl⟩
  have hrenumber := h.renumber_eq
  rw [quotient]
  dsimp only
  rw [hrenumber,congrFun hrenumber d.start]
  exact ofNodes_eq_ok (hlt _ d.start_lt) htargets

end Numbering

end Dfa

end LexAutomata
