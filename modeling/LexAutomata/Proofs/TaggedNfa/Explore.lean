import LexAutomata.TaggedNfa.Determinize
import LexAutomata.Proofs.NodeSet.Closure
import LexAutomata.Proofs.NodeSet.Table

namespace LexAutomata.TaggedNfa

variable {n : TaggedNfa}

/-- The set of all nodes that some word leads to from the start. -/
structure Reached (n : TaggedNfa) (s : NodeSet) (w : List UInt8) : Prop where
  wellFormed : s.WellFormed
  bound_eq : s.bound = n.size
  walks : ∀ q, s.contains q = true ↔ n.edges.Walk n.start w q

/-- The ends of all edges are nodes, and so is the start. -/
structure Bounded (n : TaggedNfa) : Prop where
  start_lt : n.start < n.size
  target_lt : ∀ e ∈ n.edges, e.target < n.size

theorem Reached.closed {s : NodeSet} {w : List UInt8} (h : n.Reached s w) : s.Closed n.edges := by
  intro a b ha hwalk
  have hall := ((h.walks a).mp ha).append hwalk
  rw [List.append_nil] at hall
  exact (h.walks b).mpr hall

theorem reached_initial (h : n.Bounded) : n.Reached n.initial [] where
  wellFormed := (NodeSet.growing_close _).wellFormed (NodeSet.wellFormed_singleton _ _)
  bound_eq := by rw [initial,NodeSet.bound_close,NodeSet.bound_singleton]
  walks q := by
    have hlt : ∀ e ∈ n.edges, e.label = .epsilon →
        e.target < (NodeSet.singleton n.size n.start).bound := by
      intro e he _
      rw [NodeSet.bound_singleton]
      exact h.target_lt e he
    rw [initial,NodeSet.contains_close (NodeSet.wellFormed_singleton _ _) hlt]
    simp only [NodeSet.contains_singleton]
    constructor
    · intro hfrom
      obtain ⟨m,⟨hm,_⟩,hwalk⟩ := hfrom
      exact hm ▸ hwalk
    · intro hwalk
      exact ⟨n.start,⟨rfl,h.start_lt⟩,hwalk⟩

theorem separates_piecesAt (n : TaggedNfa) (s : NodeSet) :
    (n.piecesAt s).Separates (s.leaving n.edges) :=
  ByteSet.Atoms.separates_ofList _

/-- What is reached on a piece is what is reached on each of its bytes. -/
theorem Reached.image {s : NodeSet} {w : List UInt8} {piece : ByteSet} {x : UInt8} (h : n.Reached s w)
    (hn : n.Bounded) (hpiece : piece ∈ (n.piecesAt s).pieces) (hx : piece.test x = true) :
    n.Reached (n.image s piece) (w ++ [x]) := by
  have hgrow := NodeSet.growing_addImage s n.edges piece
  have hwf := hgrow.wellFormed (NodeSet.wellFormed_empty n.size)
  have hbound := hgrow.bound_eq (NodeSet.empty n.size)
  rw [NodeSet.bound_empty] at hbound
  constructor
  · exact (NodeSet.growing_close _).wellFormed hwf
  · rw [TaggedNfa.image,NodeSet.bound_close,hbound]
  · intro q
    rw [TaggedNfa.image,NodeSet.contains_close_of_moves (x := x) h.closed hwf]
    · rw [EdgeList.Walk.append_iff]
      simp only [h.walks]
    · intro e he
      rw [hbound]
      exact hn.target_lt e he
    · intro k
      rw [NodeSet.contains_addImage_of_piece (NodeSet.wellFormed_empty _) hpiece hx,
        NodeSet.contains_empty,hbound,NodeSet.bound_empty]
      simp only [Bool.false_eq_true,false_or]

theorem Reached.exists_mem_image {s : NodeSet} {w : List UInt8} {piece : ByteSet} (h : n.Reached s w)
    (hn : n.Bounded) (hpiece : piece ∈ (n.piecesAt s).pieces) :
    ∃ q, (n.image s piece).contains q = true := by
  obtain ⟨x,hx⟩ := (n.separates_piecesAt s).exists_test hpiece
  obtain ⟨label,hlabel,hlabelx⟩ := ((n.separates_piecesAt s).covers x).mp ⟨piece,hpiece,hx⟩
  obtain ⟨a,b,he,ha⟩ := NodeSet.mem_leaving.mp hlabel
  have hwalk := ((h.walks a).mp ha).append (.single_byte he hlabelx)
  exact ⟨b,((h.image hn hpiece hx).walks b).mpr hwalk⟩

theorem Reached.not_walk {s : NodeSet} {w : List UInt8} {x : UInt8} (h : n.Reached s w)
    (hx : ∀ p ∈ (n.piecesAt s).pieces, p.test x = false) (q : Nat) :
    ¬ n.edges.Walk n.start (w ++ [x]) q := by
  intro hwalk
  obtain ⟨a,hfirst,hlast⟩ := hwalk.exists_of_append
  obtain ⟨b,c,label,hempty,he,hlabel,_⟩ := EdgeList.Walk.singleton_iff.mp hlast
  have hb := h.closed a b ((h.walks a).mpr hfirst) hempty
  obtain ⟨p,hp,hpx⟩ := ((n.separates_piecesAt s).covers x).mpr
    ⟨label,NodeSet.mem_leaving.mpr ⟨b,c,he,hb⟩,hlabel⟩
  rw [hx p hp] at hpx
  cases hpx

/-- What the transitions of `s` are: one on each piece, to the number of its image. -/
structure Leads (n : TaggedNfa) (s : NodeSet) (table : NodeSet.Table) (ts : List Transition)
    (pieces : List ByteSet) : Prop where
  labels : ts.map Transition.label = pieces
  targets : ∀ t ∈ ts, table.get? t.target = some (n.image s t.label)

theorem Leads.mono {s : NodeSet} {table later : NodeSet.Table} {ts : List Transition}
    {pieces : List ByteSet} (h : n.Leads s table ts pieces) (hlater : later.Extends table) :
    n.Leads s later ts pieces :=
  ⟨h.labels,fun t ht => hlater.get? (h.targets t ht)⟩

section Moves

variable {s : NodeSet} {table : NodeSet.Table} {pieces : List ByteSet}

theorem extends_moves (n : TaggedNfa) (s : NodeSet) (table : NodeSet.Table) (pieces : List ByteSet) :
    (n.moves s table pieces).2.Extends table := by
  induction pieces generalizing table with
  | nil => exact .refl table
  | cons piece rest ih => exact (ih (table.add (n.image s piece)).2).trans (table.extends_add _)

theorem leads_moves (n : TaggedNfa) (s : NodeSet) (table : NodeSet.Table) (pieces : List ByteSet) :
    n.Leads s (n.moves s table pieces).2 (n.moves s table pieces).1 pieces := by
  induction pieces generalizing table with
  | nil => exact ⟨rfl,fun t ht => by cases ht⟩
  | cons piece rest ih =>
    have hrest := ih (table.add (n.image s piece)).2
    rw [moves]
    refine ⟨congrArg (piece :: ·) hrest.labels,fun t ht => ?_⟩
    rcases List.mem_cons.mp ht with rfl | ht
    · exact (n.extends_moves s _ rest).get? (table.get?_add _)
    · exact hrest.targets t ht

theorem nodup_moves (h : table.sets.Nodup) : (n.moves s table pieces).2.sets.Nodup := by
  induction pieces generalizing table with
  | nil => exact h
  | cons piece rest ih => exact ih (NodeSet.Table.nodup_add h _)

/-- The sets that a node adds to the table are its images. -/
theorem mem_moves {r : NodeSet} (h : r ∈ (n.moves s table pieces).2.sets) :
    r ∈ table.sets ∨ ∃ piece ∈ pieces, r = n.image s piece := by
  induction pieces generalizing table with
  | nil => exact .inl h
  | cons piece rest ih =>
    rcases ih h with hr | ⟨p,hp,hr⟩
    · rcases NodeSet.Table.mem_add.mp hr with hr | hr
      · exact .inl hr
      · exact .inr ⟨piece,List.mem_cons_self,hr⟩
    · exact .inr ⟨p,List.mem_cons_of_mem _ hp,hr⟩

end Moves

/-- The sets in the table are distinct, and each is what some word reaches, which is not nothing. -/
structure Explored (n : TaggedNfa) (table : NodeSet.Table) : Prop where
  nodup : table.sets.Nodup
  reached : ∀ s ∈ table.sets, ∃ w, n.Reached s w
  nonempty : ∀ s ∈ table.sets, ∃ q, s.contains q = true

theorem Explored.size_le {table : NodeSet.Table} (h : n.Explored table) :
    table.size ≤ 1 <<< n.size := by
  refine NodeSet.Table.size_le_of_nodup h.nodup fun s hs => ?_
  obtain ⟨w,hw⟩ := h.reached s hs
  exact ⟨hw.wellFormed,hw.bound_eq⟩

theorem explored_initial (hn : n.Bounded) :
    n.Explored (NodeSet.Table.empty.add n.initial).2 where
  nodup := NodeSet.Table.nodup_add List.nodup_nil _
  reached s hs := by
    rcases NodeSet.Table.mem_add.mp hs with hs | rfl
    · cases hs
    · exact ⟨[],reached_initial hn⟩
  nonempty s hs := by
    rcases NodeSet.Table.mem_add.mp hs with hs | rfl
    · cases hs
    · exact ⟨n.start,((reached_initial hn).walks _).mpr (.nil _)⟩

theorem Explored.moves {s : NodeSet} {table : NodeSet.Table} (h : n.Explored table) (hn : n.Bounded)
    (hs : s ∈ table.sets) : n.Explored (n.moves s table (n.piecesAt s).pieces).2 where
  nodup := nodup_moves h.nodup
  reached r hr := by
    rcases mem_moves hr with hr | ⟨piece,hpiece,rfl⟩
    · exact h.reached r hr
    · obtain ⟨w,hw⟩ := h.reached s hs
      obtain ⟨x,hx⟩ := (n.separates_piecesAt s).exists_test hpiece
      exact ⟨w ++ [x],hw.image hn hpiece hx⟩
  nonempty r hr := by
    rcases mem_moves hr with hr | ⟨piece,hpiece,rfl⟩
    · exact h.nonempty r hr
    · obtain ⟨w,hw⟩ := h.reached s hs
      exact hw.exists_mem_image hn hpiece

/-- The node of a set: its names, and one transition on each of its pieces. -/
structure Describes (n : TaggedNfa) (table : NodeSet.Table) (s : NodeSet) (node : DfaNode) : Prop where
  names : node.names = n.namesAt s
  leads : n.Leads s table node.transitions (n.piecesAt s).pieces

/-- Where the exploration stands: the sets found, and the nodes made of the first ones. -/
structure Frontier where
  table : NodeSet.Table
  nodes : List DfaNode

def visit (n : TaggedNfa) (t : Frontier) (s : NodeSet) : Frontier :=
  let out := n.moves s t.table (n.piecesAt s).pieces
  ⟨out.2, t.nodes ++ [⟨out.1, n.namesAt s⟩]⟩

def visit? (n : TaggedNfa) (t : Frontier) : Option Frontier :=
  (t.table.get? t.nodes.length).map (n.visit t)

def firstFrontier (n : TaggedNfa) : Frontier := ⟨(NodeSet.Table.empty.add n.initial).2, []⟩

abbrev Visits (n : TaggedNfa) : Frontier → Frontier → Prop :=
  Relation.ReflTransGen fun t u => n.visit? t = some u

/-- The nodes describe the first sets one by one, and the set of the start is the first of all. -/
structure Sound (n : TaggedNfa) (t : Frontier) : Prop where
  explored : n.Explored t.table
  described : List.Forall₂ (n.Describes t.table) (t.table.sets.take t.nodes.length) t.nodes
  initial : t.table.get? 0 = some n.initial

section Visits

variable {t u : Frontier}

theorem Describes.mono {s : NodeSet} {table later : NodeSet.Table} {node : DfaNode}
    (h : n.Describes table s node) (hlater : later.Extends table) : n.Describes later s node :=
  ⟨h.names,h.leads.mono hlater⟩

theorem length_nodes_visit (n : TaggedNfa) (t : Frontier) (s : NodeSet) :
    (n.visit t s).nodes.length = t.nodes.length + 1 := by
  rw [visit,List.length_append,List.length_singleton]

theorem visit?_eq_none_iff : n.visit? t = none ↔ t.table.size ≤ t.nodes.length := by
  rw [visit?,Option.map_eq_none_iff]
  exact List.getElem?_eq_none_iff

theorem sound_firstFrontier (hn : n.Bounded) : n.Sound n.firstFrontier where
  explored := explored_initial hn
  described := .nil
  initial := rfl

theorem Sound.visit {s : NodeSet} (h : n.Sound t) (hn : n.Bounded)
    (hs : t.table.get? t.nodes.length = some s) : n.Sound (n.visit t s) := by
  have hgrown : (n.visit t s).table.Extends t.table := n.extends_moves s t.table _
  have hlt : t.nodes.length < t.table.sets.length := (List.getElem?_eq_some_iff.mp hs).1
  -- sets are only appended, so `s` is still the first one behind those that have nodes
  have hsets : (n.visit t s).table.sets.take (t.nodes.length + 1) =
      t.table.sets.take t.nodes.length ++ [s] := by
    obtain ⟨more,hmore⟩ := hgrown
    rw [← hmore,List.take_append_of_le_length hlt,List.take_add_one]
    exact congrArg (fun o => _ ++ o.toList) hs
  have hnode : n.Describes (n.visit t s).table s
      ⟨(n.moves s t.table (n.piecesAt s).pieces).1, n.namesAt s⟩ :=
    ⟨rfl,n.leads_moves s t.table _⟩
  constructor
  · exact h.explored.moves hn (List.mem_of_getElem? hs)
  · rw [length_nodes_visit,hsets]
    exact List.rel_append (h.described.imp fun _ _ hold => hold.mono hgrown) (.cons hnode .nil)
  · exact hgrown.get? h.initial

theorem Sound.visits (h : n.Sound t) (hn : n.Bounded) (hu : n.Visits t u) : n.Sound u := by
  induction hu with
  | refl => exact h
  | tail _ hlast ih =>
    obtain ⟨s,hs,rfl⟩ := Option.map_eq_some_iff.mp hlast
    exact ih.visit hn hs

/-- With enough fuel the exploration goes on until no set is left without a node. -/
theorem Sound.exists_visits (h : n.Sound t) (hn : n.Bounded) (fuel : Nat)
    (hfuel : 1 <<< n.size ≤ fuel + t.nodes.length) :
    ∃ last, n.Visits t last ∧ n.visit? last = none ∧
      last.nodes = t.nodes ++ n.explore fuel t.table t.nodes.length := by
  induction fuel generalizing t with
  | zero =>
    have hsize := h.explored.size_le
    refine ⟨t,.refl,visit?_eq_none_iff.mpr (by omega),?_⟩
    rw [explore,List.append_nil]
  | succ fuel ih =>
    rw [explore]
    cases hs : t.table.get? t.nodes.length with
    | none =>
      refine ⟨t,.refl,?_,(List.append_nil _).symm⟩
      rw [visit?,hs,Option.map_none]
    | some s =>
      have hstep : n.visit? t = some (n.visit t s) := by rw [visit?,hs,Option.map_some]
      have hless : 1 <<< n.size ≤ fuel + (n.visit t s).nodes.length := by
        rw [length_nodes_visit]
        omega
      obtain ⟨last,hlast,hend,hnodes⟩ := ih (h.visit hn hs) hless
      refine ⟨last,.head hstep hlast,hend,?_⟩
      rw [hnodes,length_nodes_visit,TaggedNfa.visit,List.append_assoc]
      rfl

theorem Sound.all_described (h : n.Sound t) (hend : n.visit? t = none) :
    List.Forall₂ (n.Describes t.table) t.table.sets t.nodes := by
  have hall := h.described
  rwa [List.take_of_length_le (visit?_eq_none_iff.mp hend)] at hall

end Visits

end LexAutomata.TaggedNfa
