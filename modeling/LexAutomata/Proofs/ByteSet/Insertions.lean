import LexAutomata.Proofs.ByteSet.Atoms
import Mathlib.Data.List.Nodup
import Mathlib.Data.List.Pairwise

namespace LexAutomata.ByteSet.Atoms

inductive Step where
  | add (s : ByteSet)
  | extend (ss : List ByteSet)
  /-- Only these sets count from now on. -/
  | collect (ss : List ByteSet)
  | carve (s : ByteSet)

/-- The atoms, and the sets inserted since they were last collected. -/
structure History where
  atoms : Atoms
  inserted : List ByteSet

namespace History

def start : History := ⟨empty, []⟩

/-- To carve is to insert what remains of each piece. -/
def apply (h : History) : Step → History
  | .add s => ⟨h.atoms.insert s, h.inserted ++ [s]⟩
  | .extend ss => ⟨h.atoms.insertAll ss, h.inserted ++ ss⟩
  | .collect ss => ⟨ofList ss, ss⟩
  | .carve s => ⟨h.atoms.carve s, h.inserted ++ h.atoms.pieces.map (·.diff s)⟩

def run (steps : List Step) : History := steps.foldl apply start

theorem separates_apply {h : History} (hh : h.atoms.Separates h.inserted) (step : Step) :
    (h.apply step).atoms.Separates (h.apply step).inserted := by
  cases step with
  | add s => exact hh.insert s
  | extend ss => exact hh.insertAll ss
  | collect ss => exact separates_ofList ss
  | carve s => exact hh.insertAll _

theorem separates_run (steps : List Step) :
    (run steps).atoms.Separates (run steps).inserted := by
  apply List.foldlRecOn (motive := fun h : History => h.atoms.Separates h.inserted)
  · exact separates_empty
  · intro h hh step _
    exact separates_apply hh step

end History

section Uniqueness

variable {a b : Atoms} {ss ts : List ByteSet} {p q : ByteSet} {x : UInt8}

theorem Separates.unique (h : a.Separates ss) (hp : p ∈ a.pieces) (hq : q ∈ a.pieces)
    (hpx : p.test x = true) (hqx : q.test x = true) : p = q := by
  have hsymm : Std.Symm fun s t : ByteSet => s.isDisjoint t = true := ⟨fun _ _ => isDisjoint_symm⟩
  by_contra hne
  have hdisjoint := isDisjoint_iff.mp (h.disjoint.forall hp hq hne) x hpx
  rw [hqx] at hdisjoint
  cases hdisjoint

theorem Separates.nodup (h : a.Separates ss) : a.pieces.Nodup := by
  apply h.disjoint.imp_of_mem
  intro p q hp _ hdisjoint heq
  obtain ⟨x,hx⟩ := h.exists_test hp
  have hnot := isDisjoint_iff.mp hdisjoint x hx
  rw [← heq,hx] at hnot
  cases hnot

theorem Separates.test_iff_together (h : a.Separates ss) (hp : p ∈ a.pieces) (hx : p.test x = true)
    (y : UInt8) : p.test y = true ↔ Together a.pieces x y := by
  constructor
  · intro hy
    exact ⟨p,hp,hx,hy⟩
  · intro htogether
    obtain ⟨q,hq,hqx,hqy⟩ := htogether
    rw [h.unique hp hq hx hqx]
    exact hqy

theorem Separates.mem_of_mem (h : a.Separates ss) (k : b.Separates ts) (hst : ∀ s, s ∈ ss ↔ s ∈ ts)
    (hp : p ∈ a.pieces) : p ∈ b.pieces := by
  have hsame : ∀ x y, Together a.pieces x y ↔ Together b.pieces x y := by
    intro x y
    rw [h.together,k.together]
    simp only [hst]
  obtain ⟨x,hx⟩ := h.exists_test hp
  obtain ⟨q,hq,hqx,_⟩ := (hsame x x).mp ⟨p,hp,hx,hx⟩
  have heq : p = q := by
    apply ByteSet.ext
    intro y
    rw [Bool.eq_iff_iff,h.test_iff_together hp hx,hsame,k.test_iff_together hq hqx]
  rw [heq]
  exact hq

theorem Separates.perm (h : a.Separates ss) (k : b.Separates ts) (hst : ∀ s, s ∈ ss ↔ s ∈ ts) :
    a.pieces.Perm b.pieces := by
  apply (List.perm_ext_iff_of_nodup h.nodup k.nodup).mpr
  intro p
  constructor
  · exact h.mem_of_mem k hst
  · exact k.mem_of_mem h fun s => (hst s).symm

end Uniqueness

/-- After any steps no piece is empty, no byte is in two pieces, the pieces cover what the inserted sets
cover, and two covered bytes share a piece if and only if every inserted set holds both or neither. Steps
that insert the same sets end with the same pieces, up to their order. -/
theorem pieces_of_run (steps : List Step) :
    let h := History.run steps
    (∀ p ∈ h.atoms.pieces, ∃ x, p.test x = true) ∧
    (h.atoms.pieces.Pairwise fun p q => ∀ x, p.test x = true → q.test x = false) ∧
    (∀ x, (∃ p ∈ h.atoms.pieces, p.test x = true) ↔ ∃ s ∈ h.inserted, s.test x = true) ∧
    (∀ x y, (∃ p ∈ h.atoms.pieces, p.test x = true) → (∃ p ∈ h.atoms.pieces, p.test y = true) →
      ((∃ p ∈ h.atoms.pieces, p.test x = true ∧ p.test y = true) ↔
        ∀ s ∈ h.inserted, s.test x = s.test y)) ∧
    ∀ others : List Step, (∀ s, s ∈ h.inserted ↔ s ∈ (History.run others).inserted) →
      h.atoms.pieces.Perm (History.run others).atoms.pieces := by
  have h := History.separates_run steps
  refine ⟨fun p hp => h.exists_test hp,?_,h.covers,?_,?_⟩
  · exact h.disjoint.imp isDisjoint_iff.mp
  · intro x y hx _
    have hcovered := (h.covers x).mp hx
    exact (h.together x y).trans (and_iff_right hcovered)
  · intro others hst
    exact h.perm (History.separates_run others) hst

/-- To carve 4 to 9 out of 0 to 7 inserts 0 to 3. The pieces are those of the two ranges collected, in
whatever order and however often. -/
theorem pieces_of_run_carved :
    (History.run [.add (.range 0 7), .carve (.range 4 9)]).atoms.pieces.Perm
      (History.run [.add .full,
        .collect [.range 0 3, .range 0 7, .range 0 3]]).atoms.pieces := by
  obtain ⟨_,_,_,_,hperm⟩ := pieces_of_run [.add (.range 0 7), .carve (.range 4 9)]
  apply hperm
  intro s
  have hcarved : (range 0 7).diff (range 4 9) = range 0 3 := by decide
  have hleft : (History.run [.add (.range 0 7), .carve (.range 4 9)]).inserted =
      [range 0 7, (range 0 7).diff (range 4 9)] := by rfl
  have hright : (History.run [.add .full,
      .collect [.range 0 3, .range 0 7, .range 0 3]]).inserted =
      [range 0 3, range 0 7, range 0 3] := by rfl
  rw [hleft,hright,hcarved]
  simp only [List.mem_cons,List.not_mem_nil,or_false]
  constructor
  · rintro (hs | hs)
    · exact .inr (.inl hs)
    · exact .inl hs
  · rintro (hs | hs | hs)
    · exact .inr hs
    · exact .inl hs
    · exact .inr hs

end LexAutomata.ByteSet.Atoms
