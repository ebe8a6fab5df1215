import LexAutomata.Proofs.ByteSet.Atoms
import LexAutomata.Proofs.Dfa.Blocks
import LexAutomata.Proofs.Dfa.Run
import Mathlib.Data.List.Find
import Mathlib.Logic.Relation

namespace LexAutomata.Dfa

variable {d : Dfa} {blocks : Partition} {i j : Nat}

/-- The blocks divide the nodes of the automaton. -/
def Divided (d : Dfa) (blocks : Partition) : Prop := NodeSet.Divides d.size (· < d.size) blocks.sets

theorem Divided.size_le (h : d.Divided blocks) : blocks.size ≤ d.size := h.length_le

section Initial

/-- What is told apart before any byte is read: finality, and the names if they count. -/
def Alike (d : Dfa) (byName : Bool) (i j : Nat) : Prop :=
  d.isFinal i = d.isFinal j ∧ (byName = true → ∀ name, name ∈ d.names i ↔ name ∈ d.names j)

theorem sameNames_iff {a b : List String} : sameNames a b = true ↔ ∀ name, name ∈ a ↔ name ∈ b := by
  simp only [sameNames,Bool.and_eq_true,List.all_eq_true,List.contains_iff_mem]
  grind

theorem equivalence_sameNames (byName : Bool) : Equivalence fun a b : List String =>
    (if byName then sameNames else fun _ _ => true) a b = true := by
  cases byName with
  | false => exact ⟨fun _ => rfl,fun _ => rfl,fun _ _ => rfl⟩
  | true =>
    simp only [if_true,sameNames_iff]
    exact ⟨fun _ _ => Iff.rfl,fun h name => (h name).symm,fun h k name => (h name).trans (k name)⟩

theorem divides_others (d : Dfa) :
    NodeSet.Divides d.size (fun id => id < d.size ∧ d.isFinal id = false)
      (if ((List.range d.size).filter fun id => !d.isFinal id).isEmpty then []
        else [((List.range d.size).filter fun id => !d.isFinal id).foldl NodeSet.insert
          (.empty d.size)]) := by
  have hmem : ∀ id, id ∈ (List.range d.size).filter (fun id => !d.isFinal id) ↔
      id < d.size ∧ d.isFinal id = false := by
    intro id
    simp
  generalize (List.range d.size).filter (fun id => !d.isFinal id) = others at hmem
  have hcontains : ∀ id, (others.foldl NodeSet.insert (.empty d.size)).contains id = true ↔
      id < d.size ∧ d.isFinal id = false := by
    intro id
    rw [NodeSet.contains_foldl_insert,NodeSet.contains_empty,NodeSet.bound_empty,hmem]
    simp only [Bool.false_eq_true,false_or]
    tauto
  cases others with
  | nil =>
    refine NodeSet.divides_nil.congr fun id => ?_
    rw [← hmem id]
    simp
  | cons first rest =>
    rw [if_neg (by simp)]
    constructor
    case wellFormed =>
      intro s hs
      rw [List.mem_singleton.mp hs]
      exact ⟨NodeSet.wellFormed_foldl_insert (NodeSet.wellFormed_empty _),NodeSet.bound_foldl_insert⟩
    case nonempty =>
      intro s hs
      rw [List.mem_singleton.mp hs]
      exact ⟨first,(hcontains first).mpr ((hmem first).mp List.mem_cons_self)⟩
    case disjoint => exact List.pairwise_singleton _ _
    case covers =>
      intro id
      rw [← hcontains id]
      simp

theorem names_of_not_isFinal {id : Nat} (h : d.isFinal id = false) : d.names id = [] := by
  simpa [isFinal] using h

theorem initialPartition_spec (d : Dfa) (byName : Bool) :
    d.Divided (d.initialPartition byName) ∧ ∀ i j,
      NodeSet.Joined (d.initialPartition byName).sets i j ↔
        i < d.size ∧ j < d.size ∧ d.Alike byName i j := by
  have hothers := divides_others d
  have hfinal : ∀ id, id ∈ (List.range d.size).filter d.isFinal ↔
      id < d.size ∧ d.isFinal id = true := by
    intro id
    simp
  have hlt : ∀ id ∈ (List.range d.size).filter d.isFinal, id < d.size :=
    fun id hid => ((hfinal id).mp hid).1
  have hsame := equivalence_sameNames byName
  have hfinals := divides_groups d.names hsame hlt
  constructor
  · refine (hothers.append hfinals fun id hid hid' => ?_).congr fun id => ?_
    · rw [hfinal,hid.2] at hid'
      cases hid'.2
    · rw [hfinal]
      cases d.isFinal id <;> simp
  · intro i j
    rw [initialPartition,NodeSet.joined_append,joined_groups d.names hsame hlt,hfinal,hfinal,
      hothers.joined_of_length_le_one (by split <;> simp)]
    unfold Alike
    constructor
    · intro hij
      rcases hij with ⟨⟨hi,hi'⟩,hj,hj'⟩ | ⟨⟨hi,hi'⟩,⟨hj,hj'⟩,hnames⟩
      · refine ⟨hi,hj,hi'.trans hj'.symm,fun _ name => ?_⟩
        rw [names_of_not_isFinal hi',names_of_not_isFinal hj']
      · refine ⟨hi,hj,hi'.trans hj'.symm,fun hbyName => ?_⟩
        rw [if_pos hbyName] at hnames
        exact sameNames_iff.mp hnames
    · intro hfrom
      obtain ⟨hi,hj,hij,hnames⟩ := hfrom
      cases hi' : d.isFinal i with
      | false => exact .inl ⟨⟨hi,rfl⟩,hj,hij.symm.trans hi'⟩
      | true =>
        refine .inr ⟨⟨hi,rfl⟩,⟨hj,hij.symm.trans hi'⟩,?_⟩
        cases byName with
        | false => rfl
        | true => exact sameNames_iff.mpr (hnames rfl)

end Initial

section Numbers

variable {α : Type} {ids : List Nat} {v : α} {numbers : Array α}

theorem size_foldl_setIfInBounds :
    (ids.foldl (fun numbers n => numbers.setIfInBounds n v) numbers).size = numbers.size := by
  induction ids generalizing numbers with
  | nil => rfl
  | cons id ids ih =>
    rw [List.foldl_cons,ih,Array.size_setIfInBounds]

theorem getElem?_foldl_setIfInBounds (hi : i < numbers.size) :
    (ids.foldl (fun numbers n => numbers.setIfInBounds n v) numbers)[i]? =
      if i ∈ ids then some v else numbers[i]? := by
  induction ids generalizing numbers with
  | nil => simp
  | cons id ids ih =>
    rw [List.foldl_cons,ih (by simpa using hi),Array.getElem?_setIfInBounds]
    grind

theorem size_blockNumbers (bound id : Nat) (sets : List NodeSet) :
    (blockNumbers bound id sets).size = bound := by
  induction sets generalizing id with
  | nil => simp [blockNumbers]
  | cons s rest ih => rw [blockNumbers,size_foldl_setIfInBounds,ih]

theorem getElem?_blockNumbers {bound : Nat} (hi : i < bound) (id : Nat) (sets : List NodeSet) :
    (blockNumbers bound id sets)[i]? =
      some ((sets.findIdx? (·.contains i)).map (· + id)) := by
  induction sets generalizing id with
  | nil => simp [blockNumbers,hi]
  | cons s rest ih =>
    have hlt : i < (blockNumbers bound (id + 1) rest).size := by
      rw [size_blockNumbers]
      exact hi
    rw [blockNumbers,getElem?_foldl_setIfInBounds hlt,ih,List.findIdx?_cons]
    by_cases hs : s.contains i = true
    · simp [hs]
    · have hadd : ∀ k, k + (id + 1) = k + 1 + id := by omega
      simp [hs,Function.comp_def,hadd]

/-- The number of the block that a node enters on a byte. -/
def enters? (d : Dfa) (blocks : Partition) (x : UInt8) (id : Nat) : Option Nat :=
  (d.next? id x).bind blocks.holding?

theorem separates_alphabet (d : Dfa) :
    d.alphabet.Separates (d.nodes.flatMap fun n => n.transitions.map (·.label)) :=
  ByteSet.Atoms.separates_ofList _

variable {piece : ByteSet} {x : UInt8}

/-- A transition on a piece is a transition on each of its bytes. -/
theorem find?_isSubset {n : DfaNode} (hn : n ∈ d.nodes) (hpiece : piece ∈ d.alphabet.pieces)
    (hx : piece.test x = true) :
    n.transitions.find? (fun t => piece.isSubset t.label) =
      n.transitions.find? (fun t => t.label.test x) := by
  refine List.find?_congr fun t ht => ?_
  rw [Bool.eq_iff_iff]
  refine d.separates_alphabet.isSubset_iff_test hpiece hx ?_
  exact List.mem_flatMap.mpr ⟨n,hn,List.mem_map_of_mem ht⟩

theorem targetBlock_eq_ok (h : d.Divided blocks) (hpiece : piece ∈ d.alphabet.pieces)
    (hx : piece.test x = true) (id : Nat) :
    d.targetBlock (blockNumbers d.size 0 blocks.sets) piece id = .ok (d.enters? blocks x id) := by
  rw [targetBlock,enters?,next?]
  cases hnode : d.node? id with
  | none => rfl
  | some n =>
    have hn := List.mem_of_getElem? hnode
    simp only [Option.bind_some,find?_isSubset hn hpiece hx,DfaNode.next?]
    cases hfind : n.transitions.find? (fun t => t.label.test x) with
    | none => rfl
    | some t =>
      have hlt := d.target_lt n hn t (List.mem_of_find?_eq_some hfind)
      obtain ⟨k,hk⟩ := NodeSet.Table.exists_holding? h hlt
      have hnumber := getElem?_blockNumbers hlt 0 blocks.sets
      have hk' : blocks.sets.findIdx? (·.contains t.target) = some k := hk
      rw [hk'] at hnumber
      simp [Dfa.size,hnumber,hk]

theorem targetBlocks_eq_ok (h : d.Divided blocks) (hpiece : piece ∈ d.alphabet.pieces)
    (hx : piece.test x = true) (ids : List Nat) :
    d.targetBlocks (blockNumbers d.size 0 blocks.sets) piece ids =
      .ok (ids.map fun id => (d.enters? blocks x id, id)) := by
  induction ids with
  | nil => rfl
  | cons id ids ih => simp only [targetBlocks,targetBlock_eq_ok h hpiece hx,ih,List.map_cons]

theorem equivalence_beq : Equivalence fun a b : Option Nat => (a == b) = true := by
  simp only [beq_iff_eq]
  exact eq_equivalence

theorem refineBlock_spec {block : NodeSet} (h : d.Divided blocks) (hblock : block ∈ blocks.sets)
    (hpiece : piece ∈ d.alphabet.pieces) (hx : piece.test x = true) :
    ∃ parts, d.refineBlock (blockNumbers d.size 0 blocks.sets) piece block = .ok parts ∧
      NodeSet.Divides d.size (fun i => block.contains i = true) parts ∧
      ∀ i j, NodeSet.Joined parts i j ↔ block.contains i = true ∧ block.contains j = true ∧
        d.enters? blocks x i = d.enters? blocks x j := by
  have hlt : ∀ id ∈ block.toList, id < d.size := by
    intro id hid
    exact (h.covers id).mp ⟨block,hblock,NodeSet.mem_toList.mp hid⟩
  refine ⟨_,by rw [refineBlock,targetBlocks_eq_ok h hpiece hx],?_,fun i j => ?_⟩
  · exact (divides_groups _ equivalence_beq hlt).congr fun id => NodeSet.mem_toList
  · rw [joined_groups _ equivalence_beq hlt]
    simp only [NodeSet.mem_toList,beq_iff_eq]

end Numbers

section Splitting

variable {piece : ByteSet} {x : UInt8} {next : Partition} {numbers : Array (Option Nat)} {id : Nat}
  {block : NodeSet}

/-- A finer partition with more blocks, in which only nodes that entered different blocks on some byte
have been taken apart. -/
structure Splits (d : Dfa) (blocks next : Partition) : Prop where
  divided : d.Divided next
  grows : blocks.size < next.size
  finer : ∀ i j, NodeSet.Joined next.sets i j → NodeSet.Joined blocks.sets i j
  along : ∃ x, ∀ i j, NodeSet.Joined blocks.sets i j →
    d.enters? blocks x i = d.enters? blocks x j → NodeSet.Joined next.sets i j

/-- Any number of splits. -/
abbrev Refines (d : Dfa) : Partition → Partition → Prop := Relation.ReflTransGen d.Splits

theorem Refines.divided (h : d.Refines blocks next) (hd : d.Divided blocks) : d.Divided next := by
  cases h with
  | refl => exact hd
  | tail _ hlast => exact hlast.divided

theorem Refines.eq_or_size_lt (h : d.Refines blocks next) : next = blocks ∨ blocks.size < next.size := by
  induction h with
  | refl => exact .inl rfl
  | tail _ hlast ih =>
    have hgrows := hlast.grows
    rcases ih with rfl | hlt
    · exact .inr hgrows
    · exact .inr (Nat.lt_trans hlt hgrows)

theorem Refines.finer (h : d.Refines blocks next) (hij : NodeSet.Joined next.sets i j) :
    NodeSet.Joined blocks.sets i j := by
  induction h with
  | refl => exact hij
  | tail _ hlast ih => exact ih (hlast.finer i j hij)

def Uniform (d : Dfa) (blocks : Partition) (x : UInt8) (block : NodeSet) : Prop :=
  ∀ i j, block.contains i = true → block.contains j = true →
    d.enters? blocks x i = d.enters? blocks x j

theorem Divided.isEmpty_eq_false (h : d.Divided blocks) (hblock : block ∈ blocks.sets) :
    block.isEmpty = false := by
  obtain ⟨i,hi⟩ := h.nonempty block hblock
  by_contra hempty
  have hnone := (NodeSet.isEmpty_iff (h.wellFormed block hblock).1).mp (Bool.not_eq_false _ ▸ hempty) i
  rw [hi] at hnone
  cases hnone

theorem splitFrom_of_none (hid : blocks.get? id = none) :
    d.splitFrom piece blocks numbers id = .ok blocks := by
  rw [splitFrom]
  split
  · rfl
  · rename_i hsome
    rw [hid] at hsome
    cases hsome

theorem splitFrom_of_single {part : NodeSet} (hid : blocks.get? id = some block)
    (hempty : block.isEmpty = false) (hparts : d.refineBlock numbers piece block = .ok [part]) :
    d.splitFrom piece blocks numbers id = d.splitFrom piece blocks numbers (id + 1) := by
  rw [splitFrom]
  split
  · rename_i hnone
    rw [hid] at hnone
    cases hnone
  · rename_i other hsome
    obtain rfl : block = other := Option.some.inj (hid.symm.trans hsome)
    rw [hempty,if_neg Bool.false_ne_true,hparts]

theorem splitFrom_of_parts {parts : List NodeSet} (hid : blocks.get? id = some block)
    (hempty : block.isEmpty = false) (hparts : d.refineBlock numbers piece block = .ok parts)
    (hlength : 2 ≤ parts.length) (hgrows : blocks.size < (replaceBlock blocks id parts).size)
    (hle : (replaceBlock blocks id parts).size ≤ d.size) :
    d.splitFrom piece blocks numbers id =
      d.splitFrom piece (replaceBlock blocks id parts)
        (blockNumbers d.size 0 (replaceBlock blocks id parts).sets) id := by
  conv_lhs => rw [splitFrom]
  split
  · rename_i hnone
    rw [hid] at hnone
    cases hnone
  · rename_i other hsome
    obtain rfl : block = other := Option.some.inj (hid.symm.trans hsome)
    rw [hempty,if_neg Bool.false_ne_true,hparts]
    rcases parts with _ | ⟨a,_ | ⟨b,rest⟩⟩
    · exact absurd hlength (by decide)
    · exact absurd hlength (by simp)
    · exact if_pos ⟨hgrows,hle⟩

/-- Replacing a block by the parts that enter different blocks on a byte is a split. -/
theorem splits_replaceBlock {parts : List NodeSet} (h : d.Divided blocks)
    (hid : blocks.get? id = some block)
    (hdivides : NodeSet.Divides d.size (fun i => block.contains i = true) parts)
    (hjoined : ∀ i j, NodeSet.Joined parts i j ↔ block.contains i = true ∧ block.contains j = true ∧
      d.enters? blocks x i = d.enters? blocks x j) (hlength : 2 ≤ parts.length) :
    d.Splits blocks (replaceBlock blocks id parts) where
  divided := divides_replaceBlock h hid hdivides
  grows := by
    have hsize := size_replaceBlock h hid hdivides
    omega
  finer i j hij := ((joined_replaceBlock h hid hdivides).mp hij).1
  along := by
    refine ⟨x,fun i j hij henters => (joined_replaceBlock h hid hdivides).mpr ⟨hij,fun hi => ?_⟩⟩
    obtain ⟨s,hs,hsi,hsj⟩ := hij
    have hsame := h.unique hs (List.mem_of_getElem? hid) hsi hi
    exact (hjoined i j).mpr ⟨hi,hsame ▸ hsj,henters⟩

theorem refineBlock_cases (h : d.Divided blocks) (hid : blocks.get? id = some block)
    (hpiece : piece ∈ d.alphabet.pieces) (hx : piece.test x = true) :
    ∃ parts, d.refineBlock (blockNumbers d.size 0 blocks.sets) piece block = .ok parts ∧
      ((∃ part, parts = [part]) ∧ d.Uniform blocks x block ∨
        2 ≤ parts.length ∧ d.Splits blocks (replaceBlock blocks id parts)) := by
  have hblock := List.mem_of_getElem? hid
  obtain ⟨parts,hparts,hdivides,hjoined⟩ := refineBlock_spec h hblock hpiece hx
  refine ⟨parts,hparts,?_⟩
  rcases parts with _ | ⟨part,_ | ⟨second,rest⟩⟩
  · obtain ⟨first,hfirst⟩ := h.nonempty block hblock
    obtain ⟨s,hs,_⟩ := (hdivides.covers first).mpr hfirst
    cases hs
  · refine .inl ⟨⟨part,rfl⟩,fun i j hi hj => ?_⟩
    have hij := (hdivides.joined_of_length_le_one (Nat.le_refl 1)).mpr ⟨hi,hj⟩
    exact ((hjoined i j).mp hij).2.2
  · have hlength : 2 ≤ (part :: second :: rest).length := by simp
    exact .inr ⟨hlength,splits_replaceBlock h hid hdivides hjoined hlength⟩

/-- Going on from block `id`, the splitting ends without a fault; if it changes nothing, the blocks from
`id` on are uniform. -/
theorem exists_splitFrom (hpiece : piece ∈ d.alphabet.pieces) (hx : piece.test x = true)
    (blocks : Partition) (id : Nat) (h : d.Divided blocks) :
    ∃ next, d.splitFrom piece blocks (blockNumbers d.size 0 blocks.sets) id = .ok next ∧
      d.Refines blocks next ∧
      (next = blocks → ∀ k block, id ≤ k → blocks.get? k = some block → d.Uniform blocks x block) := by
  cases hid : blocks.get? id with
  | none =>
    refine ⟨blocks,splitFrom_of_none hid,.refl,fun _ k block hk hblock => ?_⟩
    have hlt := (List.getElem?_eq_some_iff.mp hblock).1
    have hge := List.getElem?_eq_none_iff.mp hid
    omega
  | some block =>
    have hblock := List.mem_of_getElem? hid
    have hlt := (List.getElem?_eq_some_iff.mp hid).1
    have hempty := h.isEmpty_eq_false hblock
    obtain ⟨parts,hparts,⟨⟨part,rfl⟩,hsame⟩ | ⟨hlength,hsplits⟩⟩ := refineBlock_cases h hid hpiece hx
    · obtain ⟨next,hnext,hrefines,huniform⟩ := exists_splitFrom hpiece hx blocks (id + 1) h
      refine ⟨next,(splitFrom_of_single hid hempty hparts).trans hnext,hrefines,?_⟩
      intro heq k other hk hother
      by_cases hkid : k = id
      · subst hkid
        obtain rfl : block = other := Option.some.inj (hid.symm.trans hother)
        exact hsame
      · exact huniform heq k other (by omega) hother
    · have hgrows := hsplits.grows
      have hle := hsplits.divided.size_le
      obtain ⟨next,hnext,hrefines,_⟩ := exists_splitFrom hpiece hx _ id hsplits.divided
      refine ⟨next,(splitFrom_of_parts hid hempty hparts hlength hgrows hle).trans hnext,
        .head hsplits hrefines,fun heq => ?_⟩
      rcases hrefines.eq_or_size_lt with hsame | hlater
      · rw [heq] at hsame
        rw [← hsame] at hgrows
        omega
      · rw [heq] at hlater
        omega
termination_by (d.size - blocks.size, blocks.size - id)
decreasing_by
  · apply Prod.Lex.right
    show blocks.size - (id + 1) < blocks.size - id
    have hlt' : id < blocks.size := hlt
    omega
  · apply Prod.Lex.left
    omega

theorem Refines.antisymm (h : d.Refines blocks next) (k : d.Refines next blocks) : next = blocks := by
  rcases h.eq_or_size_lt with heq | hlt
  · exact heq
  · rcases k.eq_or_size_lt with heq | hlt'
    · exact heq.symm
    · omega

theorem exists_refinePass {pieces : List ByteSet} (hpieces : ∀ piece ∈ pieces, piece ∈ d.alphabet.pieces)
    (h : d.Divided blocks) :
    ∃ next, d.refinePass pieces blocks = .ok next ∧ d.Refines blocks next ∧
      (next = blocks → ∀ piece ∈ pieces, ∀ x, piece.test x = true →
        ∀ block ∈ blocks.sets, d.Uniform blocks x block) := by
  induction pieces generalizing blocks with
  | nil => exact ⟨blocks,rfl,.refl,fun _ piece hpiece => by cases hpiece⟩
  | cons piece rest ih =>
    have hpiece := hpieces piece List.mem_cons_self
    obtain ⟨x,hx⟩ := d.separates_alphabet.exists_test hpiece
    obtain ⟨middle,hmiddle,hfirst,_⟩ := exists_splitFrom hpiece hx blocks 0 h
    obtain ⟨next,hnext,hrest,huniform⟩ :=
      ih (fun p hp => hpieces p (List.mem_cons_of_mem _ hp)) (hfirst.divided h)
    refine ⟨next,?_,hfirst.trans hrest,fun heq => ?_⟩
    · rw [refinePass,hmiddle]
      exact hnext
    · subst heq
      have hsame := hfirst.antisymm hrest
      subst hsame
      intro p hp y hy block hblock
      rcases List.mem_cons.mp hp with rfl | hp
      · obtain ⟨other,hother,_,hall⟩ := exists_splitFrom hpiece hy middle 0 h
        have heq : other = middle := Except.ok.inj (hother.symm.trans hmiddle)
        obtain ⟨k,hk⟩ := List.mem_iff_getElem?.mp hblock
        exact hall heq k block (Nat.zero_le k) hk
      · exact huniform rfl p hp y hy block hblock

def Stable (d : Dfa) (blocks : Partition) : Prop :=
  ∀ block ∈ blocks.sets, ∀ x, d.Uniform blocks x block

theorem next?_of_uncovered (h : ∀ piece ∈ d.alphabet.pieces, ¬ piece.test x = true) (id : Nat) :
    d.next? id x = none := by
  cases hnext : d.next? id x with
  | none => rfl
  | some target =>
    obtain ⟨n,hn,hfind⟩ := Option.bind_eq_some_iff.mp hnext
    obtain ⟨t,ht,_⟩ := Option.map_eq_some_iff.mp hfind
    have hlabel : t.label ∈ d.nodes.flatMap fun n => n.transitions.map (·.label) :=
      List.mem_flatMap.mpr ⟨n,List.mem_of_getElem? hn,List.mem_map_of_mem (List.mem_of_find?_eq_some ht)⟩
    obtain ⟨piece,hpiece,hx⟩ := (d.separates_alphabet.covers x).mpr
      ⟨t.label,hlabel,List.find?_some (p := fun t : Transition => t.label.test x) ht⟩
    exact absurd hx (h piece hpiece)

theorem exists_refine (blocks : Partition) (passes : Nat) (h : d.Divided blocks) :
    ∃ next count, d.refine d.alphabet.pieces blocks passes = .ok (next, count) ∧
      d.Refines blocks next ∧ d.Stable next := by
  obtain ⟨next,hnext,hrefines,huniform⟩ := exists_refinePass (fun _ hp => hp) h
  have hle := (hrefines.divided h).size_le
  rw [refine,hnext]
  dsimp only
  by_cases hgrows : blocks.size < next.size
  · rw [if_pos ⟨hgrows,hle⟩]
    obtain ⟨last,count,hlast,hmore,hstable⟩ := exists_refine next (passes + 1) (hrefines.divided h)
    exact ⟨last,count,hlast,hrefines.trans hmore,hstable⟩
  · rw [if_neg fun hand => hgrows hand.1]
    obtain rfl : next = blocks := hrefines.eq_or_size_lt.resolve_right hgrows
    refine ⟨next,passes + 1,rfl,.refl,fun block hblock x => ?_⟩
    by_cases hcovered : ∃ piece ∈ d.alphabet.pieces, piece.test x = true
    · obtain ⟨piece,hpiece,hx⟩ := hcovered
      exact huniform rfl piece hpiece x hx block hblock
    · intro i j _ _
      have hnone := next?_of_uncovered fun piece hpiece hx => hcovered ⟨piece,hpiece,hx⟩
      rw [enters?,enters?,hnone,hnone]
termination_by d.size - blocks.size
decreasing_by omega

/-- What the minimization works with: a stable partition that tells nodes apart where the initial one
does. -/
theorem exists_refine_initialPartition (d : Dfa) (byName : Bool) :
    ∃ blocks count, d.refine d.alphabet.pieces (d.initialPartition byName) 0 = .ok (blocks, count) ∧
      d.Divided blocks ∧ d.Refines (d.initialPartition byName) blocks ∧ d.Stable blocks := by
  have hinitial := (initialPartition_spec d byName).1
  obtain ⟨blocks,count,hrefine,hrefines,hstable⟩ := exists_refine _ 0 hinitial
  exact ⟨blocks,count,hrefine,hrefines.divided hinitial,hrefines,hstable⟩

end Splitting

end LexAutomata.Dfa
