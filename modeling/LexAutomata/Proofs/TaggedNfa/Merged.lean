import LexAutomata.TaggedNfa.Basic
import LexAutomata.Proofs.Fragment.Language

namespace LexAutomata

namespace EdgeList

/-- The edges `fs` are those of `es` with a copy of `f` behind node 0 and empty moves to `sink`, from
the final node of the copy or from `known`. -/
structure Graft (es : EdgeList) (f : Fragment) (offset known sink : Nat) (fs : EdgeList) : Prop where
  kept : ∀ e ∈ es, e ∈ fs
  copied : ∀ e ∈ f.edges, e.rebase offset ∈ fs
  entered : ⟨0, f.start + offset, .epsilon⟩ ∈ fs
  only : ∀ e ∈ fs, e ∈ es ∨ (∃ k ∈ f.edges, k.rebase offset = e) ∨
    e = ⟨0, f.start + offset, .epsilon⟩ ∨
    e.label = .epsilon ∧ e.target = sink ∧ (e.source = f.final + offset ∨ e.source = known)
  known_lt : known < offset
  outside : sink < offset ∨ f.size + offset ≤ sink
  no_exit : ∀ e ∈ fs, e.source ≠ sink

/-- Edges among the first `size` nodes, none of which enters node 0. -/
def Rooted (es : EdgeList) (size : Nat) : Prop :=
  ∀ e ∈ es, e.source < size ∧ e.target < size ∧ e.target ≠ 0

/-- The words that lead from node 0 to a node of a graft: an old node keeps its words, a copied one has
those of the fragment, and the sink collects. -/
def Origin (es : EdgeList) (f : Fragment) (offset known sink x : Nat) (w : List UInt8) : Prop :=
  x < offset ∧ es.Walk 0 w x ∨
    (∃ y < f.size, x = y + offset ∧ f.edges.Walk f.start w y) ∨
    x = sink ∧ (f.edges.Walk f.start w f.final ∨ es.Walk 0 w known)

namespace Graft

variable {es fs : EdgeList} {f : Fragment} {offset known sink x y : Nat} {w : List UInt8}

theorem carries_origin (hes : es.Rooted offset) (hf : f.WellFormed)
    (h : es.Graft f offset known sink fs) : fs.Carries (es.Origin f offset known sink) := by
  intro e he u hu v hv
  have hsink := h.no_exit e he
  rcases h.only e he with hold | ⟨k,hk,rfl⟩ | rfl | ⟨hlabel,htarget,hsource⟩
  · have hlt := hes e hold
    rcases hv with ⟨_,hv⟩ | ⟨y,_,hy,_⟩ | ⟨hy,_⟩
    · exact .inl ⟨hlt.2.1,hv.append (.single hold hu)⟩
    · omega
    · exact absurd hy hsink
  · have hlt := hf.bounded k hk
    rcases hv with ⟨hx,_⟩ | ⟨y,hy,hxy,hv⟩ | ⟨hy,_⟩
    · simp only [Edge.rebase] at hx
      omega
    · have hsame : k.source = y := Nat.add_right_cancel hxy
      subst hsame
      exact .inr (.inl ⟨k.target,hlt.2,rfl,hv.append (.single hk hu)⟩)
    · exact absurd hy hsink
  · rcases hv with ⟨_,hv⟩ | ⟨y,_,hy,_⟩ | ⟨hy,_⟩
    · have hnil := hv.eq_nil_of_no_entry fun e he => (hes e he).2.2
      rw [hnil,show u = [] from hu]
      exact .inr (.inl ⟨f.start,hf.start_lt,rfl,.nil _⟩)
    · have := h.known_lt
      dsimp only at hy
      omega
    · exact absurd hy hsink
  · rw [hlabel] at hu
    rw [show u = [] from hu,List.append_nil]
    refine .inr (.inr ⟨htarget,?_⟩)
    have hknown := h.known_lt
    have hfinal := hf.final_lt
    rcases hv with ⟨hx,hv⟩ | ⟨y,_,hxy,hv⟩ | ⟨hy,_⟩
    · have hs : e.source = known := by omega
      exact .inr (hs ▸ hv)
    · have hs : f.final = y := by omega
      exact .inl (hs ▸ hv)
    · exact absurd hy hsink

theorem origin (hes : es.Rooted offset) (hf : f.WellFormed) (h : es.Graft f offset known sink fs)
    (hwalk : fs.Walk 0 w x) : es.Origin f offset known sink x w := by
  have hstart : es.Origin f offset known sink 0 [] :=
    .inl ⟨Nat.lt_of_le_of_lt (Nat.zero_le _) h.known_lt,.nil 0⟩
  exact hwalk.carries (h.carries_origin hes hf) hstart

theorem walk_old (hes : es.Rooted offset) (hf : f.WellFormed) (h : es.Graft f offset known sink fs)
    (hx : x < offset) (hsink : x ≠ sink) : fs.Walk 0 w x ↔ es.Walk 0 w x := by
  constructor
  · intro hwalk
    rcases h.origin hes hf hwalk with ⟨_,hold⟩ | ⟨y,_,hy,_⟩ | ⟨hy,_⟩
    · exact hold
    · omega
    · exact absurd hy hsink
  · exact .mono h.kept

theorem walk_copy (hes : es.Rooted offset) (hf : f.WellFormed) (h : es.Graft f offset known sink fs)
    (hy : y < f.size) : fs.Walk 0 w (y + offset) ↔ f.edges.Walk f.start w y := by
  constructor
  · intro hwalk
    rcases h.origin hes hf hwalk with ⟨hx,_⟩ | ⟨z,_,hz,hcopy⟩ | ⟨hx,_⟩
    · omega
    · have hsame : y = z := Nat.add_right_cancel hz
      exact hsame ▸ hcopy
    · have := h.outside
      omega
  · intro hwalk
    exact .epsilon h.entered (hwalk.rebase h.copied)

theorem walk_sink (hes : es.Rooted offset) (hf : f.WellFormed) (h : es.Graft f offset known sink fs)
    (hfinal : ⟨f.final + offset, sink, .epsilon⟩ ∈ fs)
    (hknown : sink = known ∨ offset ≤ sink ∧ ⟨known, sink, .epsilon⟩ ∈ fs) :
    fs.Walk 0 w sink ↔ f.edges.Walk f.start w f.final ∨ es.Walk 0 w known := by
  constructor
  · intro hwalk
    rcases h.origin hes hf hwalk with ⟨hx,hold⟩ | ⟨y,hy,hxy,_⟩ | ⟨_,hin⟩
    · rcases hknown with hsame | ⟨hge,_⟩
      · exact .inr (hsame ▸ hold)
      · omega
    · have := h.outside
      omega
    · exact hin
  · intro hin
    rcases hin with hcopy | hold
    · have hwalk := ((h.walk_copy hes hf hf.final_lt).mpr hcopy).append (.single_epsilon hfinal)
      rwa [List.append_nil] at hwalk
    · have hwalk := hold.mono h.kept
      rcases hknown with hsame | ⟨_,hedge⟩
      · exact hsame ▸ hwalk
      · have hnext := hwalk.append (.single_epsilon hedge)
        rwa [List.append_nil] at hnext

theorem rooted {size : Nat} (hes : es.Rooted offset) (hf : f.WellFormed)
    (h : es.Graft f offset known sink fs) (hsize : f.size + offset ≤ size)
    (hsink : ∀ e ∈ fs, e.target = sink → sink < size ∧ sink ≠ 0) : fs.Rooted size := by
  intro e he
  have hknown := h.known_lt
  rcases h.only e he with hold | ⟨k,hk,rfl⟩ | rfl | ⟨_,htarget,hsource⟩
  · have := hes e hold
    omega
  · have := hf.bounded k hk
    simp only [Edge.rebase]
    omega
  · have := hf.start_lt
    dsimp only
    omega
  · have := hf.final_lt
    have := hsink e he htarget
    omega

end Graft

end EdgeList

namespace TaggedNfa

def addAll (added : List (String × Fragment)) : TaggedNfa :=
  added.foldl (fun n p => n.add p.2 p.1) empty

theorem addAll_concat (added : List (String × Fragment)) (p : String × Fragment) :
    addAll (added ++ [p]) = (addAll added).add p.2 p.1 := by
  rw [addAll,List.foldl_append]
  rfl

/-- The word leads to the final node of the name. -/
def Recognizes (n : TaggedNfa) (name : String) (w : List UInt8) : Prop :=
  ∃ k ∈ n.finals, k.name = name ∧ n.edges.Walk n.start w k.node

/-- A name has one final node, which takes the words of exactly the fragments of that name. -/
structure Merges (n : TaggedNfa) (added : List (String × Fragment)) : Prop where
  start_eq : n.start = 0
  size_pos : 0 < n.size
  rooted : n.edges.Rooted n.size
  final_lt : ∀ k ∈ n.finals, k.node < n.size ∧ k.node ≠ 0
  name_inj : ∀ k ∈ n.finals, ∀ l ∈ n.finals, k.name = l.name → k = l
  node_inj : ∀ k ∈ n.finals, ∀ l ∈ n.finals, k.node = l.node → k = l
  sink : ∀ k ∈ n.finals, k.connected = true → ∀ e ∈ n.edges, e.source ≠ k.node
  named : ∀ name, (∃ k ∈ n.finals, k.name = name) ↔ ∃ p ∈ added, p.1 = name
  reads : ∀ k ∈ n.finals, ∀ w,
    n.edges.Walk 0 w k.node ↔ ∃ p ∈ added, p.1 = k.name ∧ w ∈ p.2.language

theorem merges_empty : empty.Merges [] where
  start_eq := rfl
  size_pos := Nat.one_pos
  rooted e he := by cases he
  final_lt k hk := by cases hk
  name_inj k hk := by cases hk
  node_inj k hk := by cases hk
  sink k hk := by cases hk
  named name := by simp [empty]
  reads k hk := by cases hk

section Add

variable {n : TaggedNfa} {added : List (String × Fragment)} {f : Fragment} {name : String}
  {k : NamedFinal}

theorem recognized_append {w : List UInt8} {other : String} :
    (∃ p ∈ added ++ [(name, f)], p.1 = other ∧ w ∈ p.2.language) ↔
      (∃ p ∈ added, p.1 = other ∧ w ∈ p.2.language) ∨ name = other ∧ w ∈ f.language := by
  simp [or_and_right,exists_or]

theorem add_of_new (h : n.finals.find? (fun known => known.name == name) = none) :
    n.add f name = ⟨n.pool.reserve f.size, n.start,
      (n.edges.copyFrom f.edges n.size).addEpsilon n.start (f.start + n.size),
      n.finals ++ [⟨name, f.final + n.size, false⟩]⟩ := by
  simp only [add,h]

theorem add_of_connected (h : n.finals.find? (fun known => known.name == name) = some k)
    (hk : k.connected = true) :
    n.add f name = ⟨n.pool.reserve f.size, n.start,
      ((n.edges.copyFrom f.edges n.size).addEpsilon (f.final + n.size) k.node).addEpsilon
        n.start (f.start + n.size), n.finals⟩ := by
  simp only [add,h,hk,if_true]

theorem add_of_single (h : n.finals.find? (fun known => known.name == name) = some k)
    (hk : k.connected = false) :
    n.add f name = ⟨(n.pool.reserve f.size).reserve 1, n.start,
      (((n.edges.copyFrom f.edges n.size).addEpsilon k.node (n.size + f.size)).addEpsilon
        (f.final + n.size) (n.size + f.size)).addEpsilon n.start (f.start + n.size),
      n.finals.map fun l => if l.name = name then ⟨name, n.size + f.size, true⟩ else l⟩ := by
  simp only [add,h,hk]
  rfl

/-- What told the final nodes apart still does after all of one name have given way to `target`. -/
theorem inj_of_replaced {β : Type} (g : NamedFinal → β) {old new : List NamedFinal}
    {target : NamedFinal}
    (hnew : ∀ l, l ∈ new ↔ l ∈ old ∧ l.name ≠ name ∨ l = target)
    (hold : ∀ k ∈ old, ∀ l ∈ old, g k = g l → k = l)
    (hne : ∀ l ∈ old, l.name ≠ name → g l ≠ g target) :
    ∀ k ∈ new, ∀ l ∈ new, g k = g l → k = l := by
  intro k hk l hl heq
  rcases (hnew k).mp hk with ⟨hk,hk'⟩ | rfl
  · rcases (hnew l).mp hl with ⟨hl,_⟩ | rfl
    · exact hold k hk l hl heq
    · exact absurd heq (hne k hk hk')
  · rcases (hnew l).mp hl with ⟨hl,hl'⟩ | rfl
    · exact absurd heq.symm (hne l hl hl')
    · rfl

namespace Merges

/-- Grafting a fragment for the final node `target` of its name leaves all other names as they are. -/
theorem of_graft {m : TaggedNfa} {known sink : Nat} (target : NamedFinal) (h : n.Merges added)
    (hf : f.WellFormed) (hgraft : n.edges.Graft f n.size known sink m.edges) (hstart : m.start = 0)
    (hsize : f.size + n.size ≤ m.size)
    (hsink : ∀ e ∈ m.edges, e.target = sink → sink < m.size ∧ sink ≠ 0)
    (hfinals : ∀ l, l ∈ m.finals ↔ l ∈ n.finals ∧ l.name ≠ name ∨ l = target)
    (hothers : ∀ l ∈ n.finals, l.name ≠ name →
      l.node ≠ sink ∧ l.node ≠ known ∧ l.node ≠ target.node)
    (hname : target.name = name) (hlt : target.node < m.size ∧ target.node ≠ 0)
    (hconnected : target.connected = true → target.node = sink)
    (hreads : ∀ w, m.edges.Walk 0 w target.node ↔
      (∃ p ∈ added, p.1 = name ∧ w ∈ p.2.language) ∨ w ∈ f.language) :
    m.Merges (added ++ [(name, f)]) := by
  have hpos := h.size_pos
  constructor
  case start_eq => exact hstart
  case size_pos => omega
  case rooted => exact hgraft.rooted h.rooted hf hsize hsink
  case final_lt =>
    intro l hl
    rcases (hfinals l).mp hl with ⟨hl,_⟩ | rfl
    · have := h.final_lt l hl
      omega
    · exact hlt
  case name_inj =>
    refine inj_of_replaced NamedFinal.name hfinals h.name_inj fun l _ hne heq => ?_
    exact hne (heq.trans hname)
  case node_inj =>
    exact inj_of_replaced NamedFinal.node hfinals h.node_inj fun l hl hne => (hothers l hl hne).2.2
  case sink =>
    intro l hl hl' e he
    rcases (hfinals l).mp hl with ⟨hl,hne⟩ | rfl
    · have hother := hothers l hl hne
      have hnode := h.final_lt l hl
      rcases hgraft.only e he with he | ⟨k,_,rfl⟩ | rfl | ⟨_,_,hsource⟩
      · exact h.sink l hl hl' e he
      · simp only [Edge.rebase]
        omega
      · exact hnode.2.symm
      · omega
    · rw [hconnected hl']
      exact hgraft.no_exit e he
  case named =>
    intro other
    have hold := h.named other
    simp only [hfinals,List.mem_append,List.mem_singleton]
    by_cases hsame : name = other
    · subst hsame
      constructor
      · intro _
        exact ⟨(name, f),.inr rfl,rfl⟩
      · intro _
        exact ⟨target,.inr rfl,hname⟩
    · constructor
      · intro hfrom
        obtain ⟨l,hl,hl'⟩ := hfrom
        rcases hl with ⟨hl,_⟩ | rfl
        · obtain ⟨p,hp,hp'⟩ := hold.mp ⟨l,hl,hl'⟩
          exact ⟨p,.inl hp,hp'⟩
        · exact absurd (hname.symm.trans hl') hsame
      · intro hfrom
        obtain ⟨p,hp,hp'⟩ := hfrom
        rcases hp with hp | rfl
        · obtain ⟨l,hl,hl'⟩ := hold.mpr ⟨p,hp,hp'⟩
          exact ⟨l,.inl ⟨hl,fun hn => hsame (hn.symm.trans hl')⟩,hl'⟩
        · exact absurd hp' hsame
  case reads =>
    intro l hl w
    rw [recognized_append]
    rcases (hfinals l).mp hl with ⟨hl,hne⟩ | rfl
    · have hother := hothers l hl hne
      rw [hgraft.walk_old h.rooted hf (h.final_lt l hl).1 hother.1,h.reads l hl w]
      simp [Ne.symm hne]
    · rw [hreads w,hname]
      simp

theorem mem_edges_new {e : Edge} :
    e ∈ (n.edges.copyFrom f.edges n.size).addEpsilon 0 (f.start + n.size) ↔
      e ∈ n.edges ∨ (∃ k ∈ f.edges, k.rebase n.size = e) ∨ e = ⟨0, f.start + n.size, .epsilon⟩ := by
  rw [EdgeList.mem_addEpsilon,EdgeList.mem_copyFrom,or_assoc]

theorem ends_lt_new (h : n.Merges added) (hf : f.WellFormed) {e : Edge}
    (he : e ∈ (n.edges.copyFrom f.edges n.size).addEpsilon 0 (f.start + n.size)) :
    e.source < f.size + n.size ∧ e.target < f.size + n.size := by
  have hpos := h.size_pos
  rcases mem_edges_new.mp he with he | ⟨k,hk,rfl⟩ | rfl
  · have := h.rooted e he
    omega
  · have := hf.bounded k hk
    simp only [Edge.rebase]
    omega
  · have := hf.start_lt
    dsimp only
    omega

theorem graft_new (h : n.Merges added) (hf : f.WellFormed) :
    n.edges.Graft f n.size 0 (f.size + n.size)
      ((n.edges.copyFrom f.edges n.size).addEpsilon 0 (f.start + n.size)) where
  kept e he := mem_edges_new.mpr (.inl he)
  copied e he := mem_edges_new.mpr (.inr (.inl ⟨e,he,rfl⟩))
  entered := mem_edges_new.mpr (.inr (.inr rfl))
  only e he := by
    rcases mem_edges_new.mp he with he | he | he
    · exact .inl he
    · exact .inr (.inl he)
    · exact .inr (.inr (.inl he))
  known_lt := h.size_pos
  outside := .inr (Nat.le_refl _)
  no_exit e he := Nat.ne_of_lt (h.ends_lt_new hf he).1

theorem add_new (h : n.Merges added) (hf : f.WellFormed)
    (hnone : n.finals.find? (fun known => known.name == name) = none) :
    (n.add f name).Merges (added ++ [(name, f)]) := by
  have hnew : ∀ l ∈ n.finals, l.name ≠ name := by
    intro l hl
    have := List.find?_eq_none.mp hnone l hl
    simpa using this
  have hunused : ¬ ∃ p ∈ added, p.1 = name := by
    rw [← h.named name]
    intro hfrom
    obtain ⟨l,hl,hname⟩ := hfrom
    exact hnew l hl hname
  have hfinal := hf.final_lt
  have hpos := h.size_pos
  have hsize : f.size + n.size = (n.pool.reserve f.size).allocated := Nat.add_comm _ _
  have hgraft := h.graft_new hf
  rw [add_of_new hnone,h.start_eq]
  refine h.of_graft ⟨name, f.final + n.size, false⟩ hf hgraft rfl (Nat.le_of_eq hsize)
    ?_ ?_ ?_ rfl ?_ ?_ ?_
  · intro e he htarget
    have := (h.ends_lt_new hf he).2
    omega
  · intro l
    rw [List.mem_append,List.mem_singleton]
    have := hnew l
    grind
  · intro l hl _
    have := h.final_lt l hl
    dsimp only
    omega
  · refine ⟨?_,?_⟩
    · show f.final + n.size < (n.pool.reserve f.size).allocated
      omega
    · dsimp only
      omega
  · exact Bool.noConfusion
  · intro w
    rw [hgraft.walk_copy h.rooted hf hfinal]
    constructor
    · exact .inr
    · intro hw
      rcases hw with ⟨p,hp,hname,_⟩ | hw
      · exact absurd ⟨p,hp,hname⟩ hunused
      · exact hw

section Known

structure Meets (n : TaggedNfa) (f : Fragment) (k : NamedFinal) (sink : Nat) (fs : EdgeList) : Prop where
  mem_iff : ∀ e, e ∈ fs ↔ e ∈ n.edges ∨ (∃ k ∈ f.edges, k.rebase n.size = e) ∨
    e = ⟨0, f.start + n.size, .epsilon⟩ ∨ e = ⟨f.final + n.size, sink, .epsilon⟩ ∨
      sink ≠ k.node ∧ e = ⟨k.node, sink, .epsilon⟩
  sink_eq : sink = k.node ∧ k.connected = true ∨ sink = f.size + n.size

theorem graft_known {sink : Nat} {fs : EdgeList} (h : n.Merges added) (hf : f.WellFormed)
    (hk : k ∈ n.finals) (hmeets : Meets n f k sink fs) :
    n.edges.Graft f n.size k.node sink fs := by
  have hnode := h.final_lt k hk
  have hfinal := hf.final_lt
  have hsink := hmeets.sink_eq
  constructor
  case kept =>
    intro e he
    exact (hmeets.mem_iff e).mpr (.inl he)
  case copied =>
    intro e he
    exact (hmeets.mem_iff _).mpr (.inr (.inl ⟨e,he,rfl⟩))
  case entered => exact (hmeets.mem_iff _).mpr (.inr (.inr (.inl rfl)))
  case only =>
    intro e he
    rcases (hmeets.mem_iff e).mp he with he | he | he | rfl | ⟨_,rfl⟩
    · exact .inl he
    · exact .inr (.inl he)
    · exact .inr (.inr (.inl he))
    · exact .inr (.inr (.inr ⟨rfl,rfl,.inl rfl⟩))
    · exact .inr (.inr (.inr ⟨rfl,rfl,.inr rfl⟩))
  case known_lt => exact hnode.1
  case outside => omega
  case no_exit =>
    intro e he
    rcases (hmeets.mem_iff e).mp he with he | ⟨g,hg,rfl⟩ | rfl | rfl | ⟨hne,rfl⟩
    · rcases hsink with ⟨rfl,hconnected⟩ | rfl
      · exact h.sink k hk hconnected e he
      · have := h.rooted e he
        omega
    · have := hf.bounded g hg
      simp only [Edge.rebase]
      omega
    · dsimp only
      omega
    · dsimp only
      omega
    · exact hne.symm

/-- A further fragment of the name of `k`: in place of `k`, the name has `sink` as its final node. -/
structure Joins (n : TaggedNfa) (f : Fragment) (k : NamedFinal) (sink : Nat) (m : TaggedNfa) :
    Prop where
  start_eq : m.start = 0
  meets : Meets n f k sink m.edges
  mem_finals : ∀ l, l ∈ m.finals ↔ l ∈ n.finals ∧ l.name ≠ k.name ∨ l = ⟨k.name, sink, true⟩
  size_le : f.size + n.size ≤ m.size
  sink_lt : sink < m.size
  lt_or_eq_sink : ∀ q < m.size, q < f.size + n.size ∨ q = sink

theorem exists_joins (h : n.Merges added) (f : Fragment)
    (hfind : n.finals.find? (fun known => known.name == name) = some k) :
    k ∈ n.finals ∧ k.name = name ∧ ∃ sink, Joins n f k sink (n.add f name) := by
  have hk := List.mem_of_find?_eq_some hfind
  have hname : k.name = name := by simpa using List.find?_some hfind
  refine ⟨hk,hname,?_⟩
  subst hname
  have hnode := h.final_lt k hk
  have hunique : ∀ l ∈ n.finals, l.name = k.name → l = k := by
    intro l hl hl'
    exact h.name_inj l hl k hk hl'
  cases hconnected : k.connected with
  | true =>
    have hself : k = ⟨k.name, k.node, true⟩ := by rw [← hconnected]
    rw [add_of_connected hfind hconnected,h.start_eq]
    refine ⟨k.node,rfl,⟨?_,.inl ⟨rfl,hconnected⟩⟩,?_,?_,?_,?_⟩
    · intro e
      simp only [EdgeList.mem_addEpsilon,EdgeList.mem_copyFrom]
      grind
    · intro l
      rw [← hself]
      dsimp only
      grind
    all_goals
      simp only [size,NodePool.reserve] at hnode ⊢
      omega
  | false =>
    rw [add_of_single hfind hconnected,h.start_eq]
    refine ⟨f.size + n.size,rfl,⟨?_,.inr rfl⟩,?_,?_,?_,?_⟩
    · intro e
      simp only [EdgeList.mem_addEpsilon,EdgeList.mem_copyFrom]
      have : f.size + n.size ≠ k.node := by omega
      grind
    · intro l
      simp only [List.mem_map]
      grind
    all_goals
      simp only [size,NodePool.reserve] at hnode ⊢
      omega

theorem add_known {m : TaggedNfa} {sink : Nat} (h : n.Merges added) (hf : f.WellFormed)
    (hk : k ∈ n.finals) (hjoins : Joins n f k sink m) : m.Merges (added ++ [(k.name, f)]) := by
  have hmeets := hjoins.meets
  have hsinklt := hjoins.sink_lt
  have hnode := h.final_lt k hk
  have hsink := hmeets.sink_eq
  have hgraft := h.graft_known hf hk hmeets
  refine h.of_graft ⟨k.name, sink, true⟩ hf hgraft hjoins.start_eq hjoins.size_le ?_ hjoins.mem_finals
    ?_ rfl ?_ (fun _ => rfl) ?_
  · intro e he htarget
    omega
  · intro l hl hne
    have hlt := h.final_lt l hl
    have hother : l.node ≠ k.node := by
      intro heq
      exact hne (congrArg NamedFinal.name (h.node_inj l hl k hk heq))
    dsimp only
    omega
  · dsimp only
    omega
  · intro w
    have hin : ⟨f.final + n.size, sink, .epsilon⟩ ∈ m.edges :=
      (hmeets.mem_iff _).mpr (.inr (.inr (.inr (.inl rfl))))
    have hboth : sink = k.node ∨ n.size ≤ sink ∧ ⟨k.node, sink, .epsilon⟩ ∈ m.edges := by
      by_cases hsame : sink = k.node
      · exact .inl hsame
      · have hedge := (hmeets.mem_iff _).mpr (.inr (.inr (.inr (.inr ⟨hsame,rfl⟩))))
        exact .inr ⟨by omega,hedge⟩
    rw [hgraft.walk_sink h.rooted hf hin hboth,h.reads k hk w,or_comm]
    rfl

end Known

/-- Adding a fragment adds its words to those of its name. -/
theorem add (h : n.Merges added) (hf : f.WellFormed) (name : String) :
    (n.add f name).Merges (added ++ [(name, f)]) := by
  cases hfind : n.finals.find? (fun known => known.name == name) with
  | none => exact h.add_new hf hfind
  | some k =>
    obtain ⟨hk,rfl,sink,hjoins⟩ := h.exists_joins f hfind
    exact h.add_known hf hk hjoins

theorem foldl_add {before rest : List (String × Fragment)} (h : n.Merges before)
    (hrest : ∀ p ∈ rest, p.2.WellFormed) :
    (rest.foldl (fun n p => n.add p.2 p.1) n).Merges (before ++ rest) := by
  induction rest generalizing n before with
  | nil =>
    rw [List.append_nil]
    exact h
  | cons p rest ih =>
    have hnext := h.add (hrest p List.mem_cons_self) p.1
    have hall := ih hnext fun q hq => hrest q (List.mem_cons_of_mem _ hq)
    rw [List.append_assoc] at hall
    exact hall

end Merges

theorem merges_addAll {added : List (String × Fragment)} (h : ∀ p ∈ added, p.2.WellFormed) :
    (addAll added).Merges added :=
  merges_empty.foldl_add h

theorem Merges.recognizes_iff (h : n.Merges added) {w : List UInt8} :
    n.Recognizes name w ↔ ∃ p ∈ added, p.1 = name ∧ w ∈ p.2.language := by
  unfold Recognizes
  rw [h.start_eq]
  constructor
  · intro hfrom
    obtain ⟨k,hk,hname,hwalk⟩ := hfrom
    obtain ⟨p,hp,hp',hw⟩ := (h.reads k hk w).mp hwalk
    exact ⟨p,hp,hp'.trans hname,hw⟩
  · intro hfrom
    obtain ⟨p,hp,hname,hw⟩ := hfrom
    obtain ⟨k,hk,hk'⟩ := (h.named name).mpr ⟨p,hp,hname⟩
    exact ⟨k,hk,hk',(h.reads k hk w).mpr ⟨p,hp,hname.trans hk'.symm,hw⟩⟩

end Add

end TaggedNfa

end LexAutomata
