import LexAutomata.Proofs.Walk

namespace LexAutomata

/-- Two labels collide if some word is read along both. -/
theorem Label.collides_iff {l m : Label} :
    l.collides m = true ↔ ∃ w, l.Reads w ∧ m.Reads w := by
  cases l with
  | epsilon =>
    cases m with
    | epsilon => exact ⟨fun _ => ⟨[],rfl,rfl⟩,fun _ => rfl⟩
    | bytes t =>
      constructor
      · intro h
        cases h
      · intro hfrom
        obtain ⟨w,hw,x,_,hx⟩ := hfrom
        rw [hx] at hw
        cases hw
  | bytes s =>
    cases m with
    | epsilon =>
      constructor
      · intro h
        cases h
      · intro hfrom
        obtain ⟨w,⟨x,_,hx⟩,hw⟩ := hfrom
        rw [hx] at hw
        cases hw
    | bytes t =>
      rw [Label.collides,Bool.not_eq_true',ByteSet.isDisjoint,ByteSet.isEmpty_eq_false_iff]
      simp only [ByteSet.test_inter,Bool.and_eq_true]
      constructor
      · intro hfrom
        obtain ⟨x,hs,ht⟩ := hfrom
        exact ⟨[x],⟨x,hs,rfl⟩,x,ht,rfl⟩
      · intro hfrom
        obtain ⟨w,⟨x,hs,rfl⟩,y,ht,hxy⟩ := hfrom
        cases hxy
        exact ⟨x,hs,ht⟩

namespace EdgeList

/-- An edge leads from one node to the other and reads the word: nothing, or one byte. -/
def Moves (es : EdgeList) (a : Nat) (w : List UInt8) (b : Nat) : Prop :=
  ∃ label, ⟨a, b, label⟩ ∈ es ∧ label.Reads w

variable {es : EdgeList} {e : Edge} {a b : Nat} {w : List UInt8}

theorem moves_push :
    (es.push e).Moves a w b ↔
      es.Moves a w b ∨ e.source = a ∧ e.target = b ∧ e.label.Reads w := by
  constructor
  · intro hfrom
    obtain ⟨label,hmem,hreads⟩ := hfrom
    rcases List.mem_append.mp hmem with hmem | hmem
    · exact .inl ⟨label,hmem,hreads⟩
    · rw [← List.mem_singleton.mp hmem]
      exact .inr ⟨rfl,rfl,hreads⟩
  · rintro (⟨label,hmem,hreads⟩ | ⟨rfl,rfl,hreads⟩)
    · exact ⟨label,List.mem_append_left _ hmem,hreads⟩
    · exact ⟨e.label,List.mem_append_right _ (List.mem_singleton.mpr rfl),hreads⟩

theorem isColliding_iff :
    es.isColliding e = true ↔ ∃ w, e.label.Reads w ∧ es.Moves e.source w e.target := by
  rw [isColliding,List.any_eq_true]
  constructor
  · intro hfrom
    obtain ⟨⟨a,b,label⟩,hmem,hcollides⟩ := hfrom
    simp only [Edge.collides,Bool.and_eq_true,beq_iff_eq] at hcollides
    obtain ⟨⟨rfl,rfl⟩,hlabel⟩ := hcollides
    obtain ⟨w,he,hreads⟩ := Label.collides_iff.mp hlabel
    exact ⟨w,he,label,hmem,hreads⟩
  · intro hfrom
    obtain ⟨w,he,label,hmem,hreads⟩ := hfrom
    have hcollides := Label.collides_iff.mpr ⟨w,he,hreads⟩
    exact ⟨_,hmem,by simpa [Edge.collides] using hcollides⟩

theorem insertUnique_of_colliding (h : es.isColliding e = true) : es.insertUnique e = (false, es) := by
  rw [insertUnique,if_pos h]

theorem insertUnique_of_not_colliding (h : es.isColliding e = false) :
    es.insertUnique e = (true, es.push e) := by
  rw [insertUnique,if_neg (Bool.eq_false_iff.mp h)]

theorem Moves.of_insertUnique (h : (es.insertUnique e).2.Moves a w b) : (es.push e).Moves a w b := by
  cases hc : es.isColliding e with
  | true =>
    rw [insertUnique_of_colliding hc] at h
    exact moves_push.mpr (.inl h)
  | false => rwa [insertUnique_of_not_colliding hc] at h

/-- Nothing is lost if all moves along the edge are there already, or none. -/
theorem moves_insertUnique_iff :
    (∀ a w b, (es.insertUnique e).2.Moves a w b ↔ (es.push e).Moves a w b) ↔
      ((∃ w, e.label.Reads w ∧ es.Moves e.source w e.target) →
        ∀ w, e.label.Reads w → es.Moves e.source w e.target) := by
  rw [← isColliding_iff]
  constructor
  · intro hsame hc w hw
    have hmoves := (hsame e.source w e.target).mpr (moves_push.mpr (.inr ⟨rfl,rfl,hw⟩))
    rwa [insertUnique_of_colliding hc] at hmoves
  · intro hall a w b
    refine ⟨Moves.of_insertUnique,?_⟩
    intro h
    cases hc : es.isColliding e with
    | false => rwa [insertUnique_of_not_colliding hc]
    | true =>
      rw [insertUnique_of_colliding hc]
      rcases moves_push.mp h with hold | ⟨rfl,rfl,hw⟩
      · exact hold
      · exact hall hc w hw

/-- An insertion brings no move that the edge does not bring, and brings all of them unless some are there
already and others are not. An empty move is always brought. -/
theorem insertUnique_moves (es : EdgeList) :
    (∀ e a w b, (es.insertUnique e).2.Moves a w b → (es.push e).Moves a w b) ∧
    (∀ e, (∀ a w b, (es.insertUnique e).2.Moves a w b ↔ (es.push e).Moves a w b) ↔
      ((∃ w, e.label.Reads w ∧ es.Moves e.source w e.target) →
        ∀ w, e.label.Reads w → es.Moves e.source w e.target)) ∧
    ∀ source target a w b, (es.insertUnique ⟨source, target, .epsilon⟩).2.Moves a w b ↔
      (es.push ⟨source, target, .epsilon⟩).Moves a w b := by
  refine ⟨fun e a w b => Moves.of_insertUnique,fun e => moves_insertUnique_iff,?_⟩
  intro source target
  apply moves_insertUnique_iff.mpr
  intro hfrom w hw
  obtain ⟨u,hu,hmoves⟩ := hfrom
  -- nothing is the only word that an empty move reads
  cases hu
  cases hw
  exact hmoves

/-- Beside a move on `a` and `b` one on `b` and `c` is left out, and with it the move on `c`. -/
theorem move_lost_of_overlap :
    let es : EdgeList := [⟨0, 1, .bytes (.range 97 98)⟩]
    let e : Edge := ⟨0, 1, .bytes (.range 98 99)⟩
    es.insertUnique e = (false, es) ∧ (es.push e).Moves 0 [99] 1 ∧
      ¬ (es.insertUnique e).2.Moves 0 [99] 1 := by
  intro es e
  have hleft : es.insertUnique e = (false, es) := insertUnique_of_colliding (by decide)
  refine ⟨hleft,moves_push.mpr (.inr ⟨rfl,rfl,99,by decide,rfl⟩),?_⟩
  rw [hleft]
  intro hfrom
  obtain ⟨label,hmem,hreads⟩ := hfrom
  cases List.mem_singleton.mp hmem
  obtain ⟨x,hx,heq⟩ := hreads
  cases heq
  exact absurd hx (by decide)

end EdgeList

end LexAutomata
