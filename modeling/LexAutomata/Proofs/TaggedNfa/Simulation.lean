import LexAutomata.Proofs.TaggedNfa.Explore
import LexAutomata.Proofs.TaggedNfa.Merged
import LexAutomata.Proofs.Dfa.Run

namespace LexAutomata.TaggedNfa

variable {n : TaggedNfa} {table : NodeSet.Table} {d : Dfa}

theorem mem_namesAt {s : NodeSet} {name : String} :
    name ∈ n.namesAt s ↔ ∃ k ∈ n.finals, k.name = name ∧ s.contains k.node = true := by
  rw [namesAt,List.mem_eraseDups,List.mem_map]
  simp only [List.mem_filter]
  grind

structure Realizes (n : TaggedNfa) (table : NodeSet.Table) (d : Dfa) : Prop where
  explored : n.Explored table
  described : List.Forall₂ (n.Describes table) table.sets d.nodes
  start_eq : d.start = 0
  initial : table.get? 0 = some n.initial

theorem Realizes.node? (h : n.Realizes table d) {id : Nat} {s : NodeSet}
    (hid : table.get? id = some s) : ∃ node, d.node? id = some node ∧ n.Describes table s node := by
  obtain ⟨hlt,rfl⟩ := List.getElem?_eq_some_iff.mp hid
  have hlt' : id < d.nodes.length := by
    rw [← h.described.length_eq]
    exact hlt
  exact ⟨d.nodes[id],List.getElem?_eq_getElem hlt',h.described.get hlt hlt'⟩

theorem exists_determinize_visits (hn : n.Bounded) :
    ∃ d last, n.determinize = .ok d ∧ n.Realizes last.table d ∧ n.Visits n.firstFrontier last ∧
      n.visit? last = none ∧ last.nodes = d.nodes := by
  have hfirst := sound_firstFrontier hn
  obtain ⟨last,hlast,hend,hnodes⟩ := hfirst.exists_visits hn (1 <<< n.size) (Nat.le_add_right _ _)
  have hsound := hfirst.visits hn hlast
  have hdescribed := hsound.all_described hend
  have hlength := hdescribed.length_eq
  have hstart : 0 < last.nodes.length := by
    rw [← hlength]
    exact (List.getElem?_eq_some_iff.mp hsound.initial).1
  have htargets : ∀ m ∈ last.nodes, ∀ t ∈ m.transitions, t.target < last.nodes.length := by
    intro m hm t ht
    obtain ⟨id,hid,rfl⟩ := List.mem_iff_getElem.mp hm
    have hnode := hdescribed.get (hlength ▸ hid) hid
    rw [← hlength]
    exact (List.getElem?_eq_some_iff.mp (hnode.leads.targets t ht)).1
  have hd : n.determinize = .ok ⟨last.nodes, 0, hstart, htargets⟩ := by
    rw [← Dfa.ofNodes_eq_ok hstart htargets,hnodes]
    rfl
  exact ⟨_,last,hd,⟨hsound.explored,hdescribed,rfl,hsound.initial⟩,hlast,hend,rfl⟩

theorem exists_determinize (hn : n.Bounded) : ∃ d table, n.determinize = .ok d ∧ n.Realizes table d := by
  obtain ⟨d,last,hd,hrealizes,_⟩ := exists_determinize_visits hn
  exact ⟨d,last.table,hd,hrealizes⟩

theorem Realizes.deterministic (h : n.Realizes table d) : d.Deterministic := by
  intro node hnode
  obtain ⟨id,hid,rfl⟩ := List.mem_iff_getElem.mp hnode
  have hlt : id < table.sets.length := by
    rw [h.described.length_eq]
    exact hid
  have hlabels := (h.described.get hlt hid).leads.labels
  have hdisjoint := (n.separates_piecesAt (table.sets[id])).disjoint
  unfold DfaNode.Deterministic
  exact List.pairwise_map.mp (hlabels ▸ hdisjoint)

/-- What the numbers of the automaton mean: `id` is the number of the set that the word reaches, or
there is no number and the word reaches nothing. -/
def Tracks (n : TaggedNfa) (table : NodeSet.Table) (id : Option Nat) (w : List UInt8) : Prop :=
  match id with
  | some id => ∃ s, table.get? id = some s ∧ n.Reached s w
  | none => ∀ q, ¬ n.edges.Walk n.start w q

theorem Realizes.tracks_next? (h : n.Realizes table d) (hn : n.Bounded) {id : Nat} {w : List UInt8}
    (hid : n.Tracks table (some id) w) (x : UInt8) : n.Tracks table (d.next? id x) (w ++ [x]) := by
  obtain ⟨s,hs,hreached⟩ := hid
  obtain ⟨node,hnode,hdescribed⟩ := h.node? hs
  have hlabels := hdescribed.leads.labels
  rw [Dfa.next?_of_node? hnode,DfaNode.next?]
  cases hfind : node.transitions.find? (·.label.test x) with
  | none =>
    apply hreached.not_walk
    intro p hp
    rw [← hlabels] at hp
    obtain ⟨t,ht,rfl⟩ := List.mem_map.mp hp
    exact Bool.eq_false_iff.mpr (List.find?_eq_none.mp hfind t ht)
  | some t =>
    have ht := List.mem_of_find?_eq_some hfind
    have hx := List.find?_some (p := fun t : Transition => t.label.test x) hfind
    have hpiece : t.label ∈ (n.piecesAt s).pieces := hlabels ▸ List.mem_map_of_mem ht
    exact ⟨n.image s t.label,hdescribed.leads.targets t ht,hreached.image hn hpiece hx⟩

theorem Realizes.tracks (h : n.Realizes table d) (hn : n.Bounded) (w : List UInt8) :
    n.Tracks table (d.follow? d.start w) w := by
  induction w using List.reverseRecOn with
  | nil =>
    rw [h.start_eq]
    exact ⟨n.initial,h.initial,reached_initial hn⟩
  | append_singleton w x ih =>
    rw [Dfa.follow?_concat]
    cases hid : d.follow? d.start w with
    | none =>
      rw [hid] at ih
      intro q hwalk
      obtain ⟨a,hfirst,_⟩ := hwalk.exists_of_append
      exact ih a hfirst
    | some id =>
      rw [hid] at ih
      exact h.tracks_next? hn ih x

theorem Realizes.exists_follow? (h : n.Realizes table d) (hn : n.Bounded) {w : List UInt8} {q : Nat}
    (hwalk : n.edges.Walk n.start w q) :
    ∃ i, d.follow? d.start w = some i ∧ n.Tracks table (some i) w := by
  have htracks := h.tracks hn w
  cases hi : d.follow? d.start w with
  | none =>
    rw [hi] at htracks
    exact absurd hwalk (htracks q)
  | some i =>
    rw [hi] at htracks
    exact ⟨i,rfl,htracks⟩

/-- The names after a word are those under which it is recognized. -/
theorem Realizes.mem_names_iff (h : n.Realizes table d) {id : Nat} {w : List UInt8}
    (hid : n.Tracks table (some id) w) {name : String} :
    name ∈ d.names id ↔ n.Recognizes name w := by
  obtain ⟨s,hs,hreached⟩ := hid
  obtain ⟨node,hnode,hdescribed⟩ := h.node? hs
  rw [Dfa.names_of_node? hnode,hdescribed.names,mem_namesAt]
  simp only [hreached.walks]
  rfl

theorem Realizes.accepts_iff (h : n.Realizes table d) (hn : n.Bounded) {w : List UInt8}
    {required : List String} :
    (Dfa.Runner.accepts d w required).1 = true ↔
      ∃ name, n.Recognizes name w ∧ (required = [] ∨ name ∈ required) := by
  rw [Dfa.Runner.accepts_iff]
  constructor
  · intro hfrom
    obtain ⟨id,hid,name,hname,hrequired⟩ := hfrom
    have htracks := h.tracks hn w
    rw [hid] at htracks
    exact ⟨name,(h.mem_names_iff htracks).mp hname,hrequired⟩
  · intro hfrom
    obtain ⟨name,hrecognized,hrequired⟩ := hfrom
    have hreached := hrecognized
    obtain ⟨k,_,_,hwalk⟩ := hreached
    obtain ⟨id,hid,hidtracks⟩ := h.exists_follow? hn hwalk
    exact ⟨id,hid,name,(h.mem_names_iff hidtracks).mpr hrecognized,hrequired⟩

theorem Merges.bounded {added : List (String × Fragment)} (h : n.Merges added) : n.Bounded where
  start_lt := by
    rw [h.start_eq]
    exact h.size_pos
  target_lt e he := (h.rooted e he).2.1

/-- The determinized automaton of any fragments accepts a word under a name if and only if a fragment
of that name does, and without a required name if and only if any fragment does. -/
theorem determinize_exact (added : List (String × Fragment)) (h : ∀ p ∈ added, p.2.Built) :
    ∃ d, (addAll added).determinize = .ok d ∧
      (∀ w name, (Dfa.Runner.accepts d w [name]).1 = true ↔
        ∃ p ∈ added, p.1 = name ∧ p.2.accepts w = true) ∧
      ∀ w, (Dfa.Runner.accepts d w []).1 = true ↔ ∃ p ∈ added, p.2.accepts w = true := by
  have hmerges : (addAll added).Merges added := merges_addAll fun p hp => (h p hp).wellFormed
  obtain ⟨d,table,hd,hrealizes⟩ := exists_determinize hmerges.bounded
  have haccepts : ∀ w, ∀ p ∈ added, p.2.accepts w = true ↔ w ∈ p.2.language := by
    intro w p hp
    exact Fragment.accepts_iff (h p hp).wellFormed
  refine ⟨d,hd,?_,?_⟩
  · intro w name
    rw [hrealizes.accepts_iff hmerges.bounded]
    simp only [hmerges.recognizes_iff]
    constructor
    · intro hfrom
      obtain ⟨other,⟨p,hp,hname,hw⟩,hrequired⟩ := hfrom
      have hsame : other = name := by simpa using hrequired
      exact ⟨p,hp,hname.trans hsame,(haccepts w p hp).mpr hw⟩
    · intro hfrom
      obtain ⟨p,hp,hname,hw⟩ := hfrom
      exact ⟨name,⟨p,hp,hname,(haccepts w p hp).mp hw⟩,.inr (List.mem_singleton.mpr rfl)⟩
  · intro w
    rw [hrealizes.accepts_iff hmerges.bounded]
    simp only [hmerges.recognizes_iff]
    constructor
    · intro hfrom
      obtain ⟨_,⟨p,hp,_,hw⟩,_⟩ := hfrom
      exact ⟨p,hp,(haccepts w p hp).mpr hw⟩
    · intro hfrom
      obtain ⟨p,hp,hw⟩ := hfrom
      exact ⟨p.1,⟨p,hp,rfl,(haccepts w p hp).mp hw⟩,.inl trivial⟩

/-- Two fragments of one name, one of them with a repetition: the word of either is accepted under the
name, and no other name is found. -/
theorem determinize_exact_of_shared_name :
    ∃ d, (addAll [("id", .ofSet (.singleton 97)), ("id", .star (.ofSet (.singleton 98)))]).determinize =
        .ok d ∧
      (Dfa.Runner.accepts d [97] ["id"]).1 = true ∧ (Dfa.Runner.accepts d [] ["id"]).1 = true ∧
      (Dfa.Runner.accepts d [97] ["other"]).1 = false := by
  have hbuilt : ∀ p ∈ [("id", Fragment.ofSet (.singleton 97)),
      ("id", .star (.ofSet (.singleton 98)))], p.2.Built := by
    intro p hp
    simp only [List.mem_cons,List.not_mem_nil,or_false] at hp
    rcases hp with rfl | rfl
    · exact .ofSet _
    · exact .star (.ofSet _)
  obtain ⟨d,hd,hnamed,_⟩ := determinize_exact _ hbuilt
  refine ⟨d,hd,?_,?_,?_⟩
  · refine (hnamed _ _).mpr ⟨_,List.mem_cons_self,rfl,?_⟩
    rw [Fragment.accepts_iff (.ofSet _)]
    exact EdgeList.Walk.single_byte (s := .singleton 97) (by decide) (by decide)
  · refine (hnamed _ _).mpr ⟨_,List.mem_cons_of_mem _ List.mem_cons_self,rfl,?_⟩
    rw [Fragment.accepts_iff (.star (.ofSet _))]
    exact EdgeList.Walk.single_epsilon (by decide)
  · rw [Bool.eq_false_iff]
    intro h
    obtain ⟨p,hp,hname,_⟩ := (hnamed _ _).mp h
    simp only [List.mem_cons,List.not_mem_nil,or_false] at hp
    rcases hp with rfl | rfl
    · exact absurd hname (by decide)
    · exact absurd hname (by decide)

end LexAutomata.TaggedNfa
