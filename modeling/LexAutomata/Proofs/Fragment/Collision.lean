import LexAutomata.Proofs.Fragment.Path
import LexAutomata.Proofs.Fragment.Trim
import LexAutomata.Proofs.Insertion

namespace LexAutomata

theorem Edge.collides_comm (e k : Edge) : e.collides k = k.collides e := by
  have hlabel : e.label.collides k.label = k.label.collides e.label := by
    rw [Bool.eq_iff_iff,Label.collides_iff,Label.collides_iff]
    exact exists_congr fun w => and_comm
  rw [collides,collides,hlabel,Bool.beq_comm,Bool.beq_comm (a := e.target)]

theorem Edge.collides_rebase (e k : Edge) (offset : Nat) :
    (e.rebase offset).collides (k.rebase offset) = e.collides k := by
  rw [Bool.eq_iff_iff]
  simp [collides,rebase]

namespace EdgeList

def Apart (es : EdgeList) : Prop := es.Pairwise fun e k => e.collides k = false

/-- Every label reads some word, so no set without members is a label. -/
def Readable (es : EdgeList) : Prop := ∀ e ∈ es, ∃ w, e.label.Reads w

variable {es fs : EdgeList} {a b offset : Nat} {s : ByteSet}

theorem Apart.insertUnique (h : es.Apart) (e : Edge) : (es.insertUnique e).2.Apart := by
  cases hc : es.isColliding e with
  | true => rwa [insertUnique_of_colliding hc]
  | false =>
    rw [insertUnique_of_not_colliding hc]
    refine List.pairwise_append.mpr ⟨h,List.pairwise_singleton _ _,?_⟩
    intro k hk l hl
    rw [List.mem_singleton.mp hl,Edge.collides_comm]
    exact Bool.eq_false_iff.mpr (List.any_eq_false.mp hc k hk)

theorem Apart.addEpsilon (h : es.Apart) (a b : Nat) : (es.addEpsilon a b).Apart := h.insertUnique _

theorem Apart.copyFrom (h : es.Apart) (hfs : fs.Apart) (hlt : ∀ e ∈ es, e.source < offset) :
    (es.copyFrom fs offset).Apart := by
  refine List.pairwise_append.mpr ⟨h,List.pairwise_map.mpr (hfs.imp ?_),?_⟩
  · intro e k hek
    rwa [Edge.collides_rebase]
  · intro e he k hk
    obtain ⟨l,_,rfl⟩ := List.mem_map.mp hk
    have hne : e.source ≠ l.source + offset := by
      have := hlt e he
      omega
    simp [Edge.collides,Edge.rebase,hne]

theorem Readable.addEpsilon (h : es.Readable) (a b : Nat) : (es.addEpsilon a b).Readable := by
  intro e he
  rcases mem_addEpsilon.mp he with he | rfl
  · exact h e he
  · exact ⟨[],rfl⟩

theorem Readable.copyFrom (h : es.Readable) (hfs : fs.Readable) (offset : Nat) :
    (es.copyFrom fs offset).Readable := by
  intro e he
  rcases mem_copyFrom.mp he with he | ⟨k,hk,rfl⟩
  · exact h e he
  · exact hfs k hk

theorem Readable.isEmpty_eq_false (h : es.Readable) (he : ⟨a, b, .bytes s⟩ ∈ es) :
    s.isEmpty = false := by
  obtain ⟨w,x,hx,_⟩ := h _ he
  exact ByteSet.isEmpty_eq_false_iff.mpr ⟨x,hx⟩

end EdgeList

namespace Fragment

variable {f : Fragment}

theorem readable_ofSet (s : ByteSet) : (ofSet s).edges.Readable := by
  intro e he
  rw [mem_edges_ofSet.mp he]
  exact exists_reads_ofSet s

theorem apart_ofSet (s : ByteSet) : (ofSet s).edges.Apart := by
  unfold ofSet
  dsimp only
  split
  · exact EdgeList.Apart.addEpsilon .nil 0 1
  · exact List.pairwise_singleton _ _

theorem Built.readable (h : f.Built) : f.edges.Readable := by
  induction h with
  | ofSet s => exact readable_ofSet s
  | optional _ ih => exact ih.addEpsilon _ _
  | star _ ih => exact (((ih.addEpsilon _ _).addEpsilon _ _).addEpsilon _ _).addEpsilon _ _
  | plus _ ih => exact ((ih.addEpsilon _ _).addEpsilon _ _).addEpsilon _ _
  | concat _ _ hf hg => exact (hf.copyFrom hg _).addEpsilon _ _
  | choice _ _ hf hg =>
    exact ((((hf.copyFrom hg _).addEpsilon _ _).addEpsilon _ _).addEpsilon _ _).addEpsilon _ _

theorem Built.apart (h : f.Built) : f.edges.Apart := by
  induction h with
  | ofSet s => exact apart_ofSet s
  | optional _ ih => exact ih.addEpsilon _ _
  | star _ ih => exact (((ih.addEpsilon _ _).addEpsilon _ _).addEpsilon _ _).addEpsilon _ _
  | plus _ ih => exact ((ih.addEpsilon _ _).addEpsilon _ _).addEpsilon _ _
  | concat hbuilt _ hf hg =>
    exact (hf.copyFrom hg fun e he => (hbuilt.wellFormed.bounded e he).1).addEpsilon _ _
  | choice hbuilt _ hf hg =>
    have hcopied := hf.copyFrom hg fun e he => (hbuilt.wellFormed.bounded e he).1
    exact (((hcopied.addEpsilon _ _).addEpsilon _ _).addEpsilon _ _).addEpsilon _ _

/-- The shape of what the combinators build: two different ends among the nodes, all edges between nodes,
none into the start and none out of the final node, no set without members on an edge, no two edges that
collide, and every node on a path from the start to the final node. -/
theorem built_shape (h : f.Built) :
    f.start < f.size ∧ f.final < f.size ∧ f.start ≠ f.final ∧
    (∀ e ∈ f.edges, e.source < f.size ∧ e.target < f.size ∧ e.target ≠ f.start ∧
      e.source ≠ f.final) ∧
    (∀ a b s, ⟨a, b, .bytes s⟩ ∈ f.edges → s.isEmpty = false) ∧
    f.edges.Apart ∧
    ∀ n < f.size, ∃ p q, f.edges.Path f.start p n ∧ f.edges.Path n q f.final := by
  have hwf := h.wellFormed
  refine ⟨hwf.start_lt,hwf.final_lt,hwf.start_ne_final,?_,?_,h.apart,?_⟩
  · intro e he
    obtain ⟨hsource,htarget⟩ := hwf.bounded e he
    exact ⟨hsource,htarget,hwf.no_entry e he,hwf.no_exit e he⟩
  · intro a b s he
    exact h.readable.isEmpty_eq_false he
  · intro n hn
    obtain ⟨u,v,hu,hv⟩ := h.trim n hn
    obtain ⟨p,hp,_⟩ := hu.exists_path
    obtain ⟨q,hq,_⟩ := hv.exists_path
    exact ⟨p,q,hp,hq⟩

/-- A repetition with an optional byte and a set without members inside, beside a copy of itself. -/
theorem built_shape_of_nested :
    let f := ((ofSet (.range 48 57)).optional.choice emptyMatch).star
    let g := f.concat f
    g.Built ∧ g.edges.Apart ∧ (∀ e ∈ g.edges, e.target ≠ g.start ∧ e.source ≠ g.final) ∧
      ∀ n < g.size, ∃ p q, g.edges.Path g.start p n ∧ g.edges.Path n q g.final := by
  intro f g
  have hf : f.Built := .star (.choice (.optional (.ofSet _)) .emptyMatch)
  have hg : g.Built := .concat hf hf
  obtain ⟨_,_,_,hends,_,hapart,hpaths⟩ := built_shape hg
  exact ⟨hg,hapart,fun e he => (hends e he).2.2,hpaths⟩

end Fragment

end LexAutomata
