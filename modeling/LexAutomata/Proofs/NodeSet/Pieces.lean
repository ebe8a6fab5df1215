import LexAutomata.Proofs.Insertion
import LexAutomata.Proofs.NodeSet.Fixpoint

namespace LexAutomata

theorem EdgeList.moves_byte_iff {es : EdgeList} {a b : Nat} {x : UInt8} :
    es.Moves a [x] b ↔ ∃ label, ⟨a, b, .bytes label⟩ ∈ es ∧ label.test x = true := by
  constructor
  · intro hfrom
    obtain ⟨label,he,hreads⟩ := hfrom
    cases label with
    | epsilon => cases hreads
    | bytes s =>
      obtain ⟨y,hy,heq⟩ := hreads
      cases heq
      exact ⟨s,he,hy⟩
  · intro hfrom
    obtain ⟨label,he,hx⟩ := hfrom
    exact ⟨_,he,x,hx,rfl⟩

namespace ByteSet.Atoms

theorem filter_test_eq {ps : List ByteSet} {p : ByteSet} {x : UInt8}
    (h : ps.Pairwise fun s t => s.isDisjoint t = true) (hp : p ∈ ps) (hx : p.test x = true) :
    ps.filter (·.test x) = [p] := by
  induction ps with
  | nil => cases hp
  | cons q ps ih =>
    obtain ⟨hhead,htail⟩ := List.pairwise_cons.mp h
    rcases List.mem_cons.mp hp with rfl | hp
    · rw [List.filter_cons,if_pos hx,List.filter_eq_nil_iff.mpr]
      intro k hk
      rw [isDisjoint_iff.mp (hhead k hk) x hx]
      exact Bool.false_ne_true
    · have hq : ¬ q.test x = true := by
        intro hqx
        rw [isDisjoint_iff.mp (hhead p hp) x hqx] at hx
        cases hx
      rw [List.filter_cons,if_neg hq]
      exact ih htail hp

theorem Separates.isSubset_or_isDisjoint {a : Atoms} {ss : List ByteSet} (h : a.Separates ss)
    {p s : ByteSet} (hp : p ∈ a.pieces) (hs : s ∈ ss) :
    p.isSubset s = true ∨ s.isDisjoint p = true := by
  obtain ⟨x,hx⟩ := h.exists_test hp
  cases hsx : s.test x with
  | true => exact .inl ((h.isSubset_iff_test hp hx hs).mpr hsx)
  | false =>
    refine .inr (isDisjoint_iff.mpr fun y hy => ?_)
    cases hpy : p.test y with
    | false => rfl
    | true =>
      have hsub := isSubset_iff.mp ((h.isSubset_iff_test hp hpy hs).mpr hy) x hx
      rw [hsx] at hsub
      cases hsub

end ByteSet.Atoms

namespace NodeSet

variable {sources : NodeSet} {es : EdgeList} {piece label : ByteSet} {x : UInt8}

theorem exists_mem_leaving_iff :
    (∃ label ∈ sources.leaving es, label.test x = true) ↔
      ∃ a b, sources.contains a = true ∧ es.Moves a [x] b := by
  simp only [mem_leaving,EdgeList.moves_byte_iff]
  grind

theorem addImage_eq_step
    (hpiece : piece ∈ (ByteSet.Atoms.ofList (sources.leaving es)).pieces) (hx : piece.test x = true) :
    (empty sources.bound).addImage sources es piece = sources.step es x := by
  have hgrow := growing_addImage sources es piece
  have hempty := wellFormed_empty sources.bound
  refine ext_of_contains (hgrow.wellFormed hempty) (wellFormed_step sources es x) ?_ ?_
  · rw [hgrow.bound_eq,bound_step,bound_empty]
  · intro n
    rw [Bool.eq_iff_iff,contains_addImage_of_piece hempty hpiece hx,contains_step,contains_empty,
      bound_empty]
    simp only [Bool.false_eq_true,false_or]

theorem addImage?_eq_ok {s : NodeSet} (hlt : ∀ e ∈ es, e.target < s.bound) :
    s.addImage? sources es piece = .ok (s.addImage sources es piece) := by
  rw [addImage?,if_neg]
  intro hany
  obtain ⟨⟨a,t,b⟩,hm,hfound⟩ := List.any_eq_true.mp hany
  have hb := of_decide_eq_true (Bool.and_eq_true_iff.mp hfound).2
  exact absurd (hlt _ (EdgeList.mem_byteMoves.mp hm)) (Nat.not_lt.mpr hb)

/-- The pieces of the labels that leave `sources`. A byte on which some edge leaves is in exactly one of
them, under which the image of `sources` is the targets of those edges; any other byte is in none. No label
holds a part of a piece only, and the loop that makes the image always ends. -/
theorem image_of_piece (sources : NodeSet) (es : EdgeList)
    (hlt : ∀ e ∈ es, e.target < sources.bound) (x : UInt8) :
    let pieces := (ByteSet.Atoms.ofList (sources.leaving es)).pieces
    ((∃ a b, sources.contains a = true ∧ es.Moves a [x] b) →
      ∃ piece image, pieces.filter (·.test x) = [piece] ∧
        (empty sources.bound).addImage? sources es piece = .ok image ∧
        image = (empty sources.bound).addImage sources es piece ∧ image = sources.step es x ∧
        ∀ n, image.contains n = true ↔ ∃ a, sources.contains a = true ∧ es.Moves a [x] n) ∧
    ((¬ ∃ a b, sources.contains a = true ∧ es.Moves a [x] b) →
      ∀ piece ∈ pieces, piece.test x = false) ∧
    (∀ piece ∈ pieces, ∀ label ∈ sources.leaving es,
      piece.isSubset label = true ∨ label.isDisjoint piece = true) ∧
    ∀ (s : NodeSet) (piece : ByteSet), s.Made → ∃ count ≤ s.bound - s.count + 1,
      Loop (imageScan sources es piece) s count (s.addImage? sources es piece) := by
  intro pieces
  have hpieces := ByteSet.Atoms.separates_ofList (sources.leaving es)
  have hcovers := (hpieces.covers x).trans exists_mem_leaving_iff
  refine ⟨?_,?_,?_,?_⟩
  · intro hleaves
    obtain ⟨piece,hp,hx⟩ := hcovers.mpr hleaves
    refine ⟨piece,_,ByteSet.Atoms.filter_test_eq hpieces.disjoint hp hx,addImage?_eq_ok hlt,rfl,
      addImage_eq_step hp hx,?_⟩
    intro n
    rw [addImage_eq_step hp hx,contains_step]
    simp only [EdgeList.moves_byte_iff]
    grind
  · intro hnone piece hp
    rw [← Bool.not_eq_true]
    intro hx
    exact hnone (hcovers.mp ⟨piece,hp,hx⟩)
  · intro piece hp label hl
    exact hpieces.isSubset_or_isDisjoint hp hl
  · intro s piece hs
    exact exists_loop_addImage? hs.wellFormed sources es piece

/-- On a byte that two overlapping labels share, the image holds both targets. -/
theorem image_of_piece_overlapping :
    let es : EdgeList := [⟨0, 2, .bytes (.range 97 99)⟩, ⟨1, 3, .bytes (.range 98 100)⟩,
      ⟨2, 1, .bytes (.range 97 122)⟩]
    let sources := (singleton 4 0).insert 1
    let pieces := (ByteSet.Atoms.ofList (sources.leaving es)).pieces
    (∀ e ∈ es, e.target < sources.bound) ∧
      (∃ piece, pieces.filter (·.test 98) = [piece] ∧
        ((empty 4).addImage sources es piece).contains 2 = true ∧
        ((empty 4).addImage sources es piece).contains 3 = true ∧
        ((empty 4).addImage sources es piece).contains 1 = false) ∧
      ∀ piece ∈ pieces, piece.test 122 = false := by
  intro es sources pieces
  have hlt : ∀ e ∈ es, e.target < sources.bound := by decide
  obtain ⟨hshared,_,_,_⟩ := image_of_piece sources es hlt 98
  obtain ⟨_,hnone,_,_⟩ := image_of_piece sources es hlt 122
  have hfirst : es.Moves 0 [98] 2 :=
    EdgeList.moves_byte_iff.mpr ⟨.range 97 99,by decide,by decide⟩
  have hsecond : es.Moves 1 [98] 3 :=
    EdgeList.moves_byte_iff.mpr ⟨.range 98 100,by decide,by decide⟩
  obtain ⟨piece,_,hpiece,_,rfl,hstep,himage⟩ := hshared ⟨0,2,by decide,hfirst⟩
  refine ⟨hlt,⟨piece,hpiece,?_,?_,?_⟩,?_⟩
  · exact (himage 2).mpr ⟨0,by decide,hfirst⟩
  · exact (himage 3).mpr ⟨1,by decide,hsecond⟩
  · show ((empty sources.bound).addImage sources es piece).contains 1 = false
    rw [hstep]
    decide
  · refine hnone ?_
    intro hfrom
    obtain ⟨label,hl,hx⟩ := exists_mem_leaving_iff.mpr hfrom
    have hmissed : ∀ label ∈ sources.leaving es, label.test 122 = false := by decide
    rw [hmissed label hl] at hx
    cases hx

end NodeSet

end LexAutomata
