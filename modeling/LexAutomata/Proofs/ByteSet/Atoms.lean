import LexAutomata.ByteSet.Atoms

namespace LexAutomata.ByteSet

theorem isDisjoint_symm {s t : ByteSet} (h : s.isDisjoint t = true) : t.isDisjoint s = true := by
  apply isDisjoint_iff.mpr
  intro x hx
  cases hs : s.test x with
  | false => rfl
  | true =>
    rw [isDisjoint_iff.mp h x hs] at hx
    cases hx

/-- The bytes share a piece. A byte is covered when it shares one with itself. -/
def Together (ps : List ByteSet) (x y : UInt8) : Prop := ∃ p ∈ ps, p.test x = true ∧ p.test y = true

section Together

variable {p : ByteSet} {ps qs : List ByteSet} {x y : UInt8}

theorem together_nil : ¬ Together [] x y := by
  intro hfrom
  obtain ⟨p,hp,_⟩ := hfrom
  cases hp

theorem together_cons :
    Together (p :: ps) x y ↔ p.test x = true ∧ p.test y = true ∨ Together ps x y := by
  simp [Together]

theorem together_append : Together (ps ++ qs) x y ↔ Together ps x y ∨ Together qs x y := by
  simp [Together,or_and_right,exists_or]

theorem Together.left (h : Together ps x y) : Together ps x x := by
  obtain ⟨p,hp,hx,_⟩ := h
  exact ⟨p,hp,hx,hx⟩

theorem Together.right (h : Together ps x y) : Together ps y y := by
  obtain ⟨p,hp,_,hy⟩ := h
  exact ⟨p,hp,hy,hy⟩

theorem not_together_of_head
    (h : (p :: ps).Pairwise fun s t => s.isDisjoint t = true) (hx : p.test x = true) :
    ¬ Together ps x x := by
  intro hfrom
  obtain ⟨q,hq,hqx,_⟩ := hfrom
  have hd := isDisjoint_iff.mp ((List.pairwise_cons.mp h).1 q hq) x hx
  rw [hd] at hqx
  cases hqx

theorem together_optional (x y : UInt8) :
    Together (if p.isEmpty then [] else [p]) x y ↔ p.test x = true ∧ p.test y = true := by
  by_cases h : p.isEmpty = true
  · rw [if_pos h,isEmpty_iff.mp h x]
    simp [together_nil]
  · rw [if_neg h,together_cons]
    simp [together_nil]

end Together

namespace Atoms

/-- Splitting by `s` keeps two bytes together that were so before and lie on the same side of `s`; what
no piece covered before stays together in `s`. -/
theorem together_split {s : ByteSet} {ps : List ByteSet} {x y : UInt8}
    (h : ps.Pairwise fun s t => s.isDisjoint t = true) :
    Together (split s ps) x y ↔
      Together ps x y ∧ s.test x = s.test y ∨
        s.test x = true ∧ s.test y = true ∧ ¬ Together ps x x ∧ ¬ Together ps y y := by
  induction ps generalizing s with
  | nil =>
    rw [split,together_cons]
    simp [together_nil]
  | cons p ps ih =>
    have hx := not_together_of_head (x := x) h
    have hy := not_together_of_head (x := y) h
    have hleft : Together ps x y → Together ps x x := Together.left
    have hright : Together ps x y → Together ps y y := Together.right
    have htail := (List.pairwise_cons.mp h).2
    rw [split]
    split
    · rename_i heq
      subst heq
      simp only [together_cons]
      grind
    · split
      · rename_i hdisjoint
        have hsx := isDisjoint_iff.mp hdisjoint x
        have hsy := isDisjoint_iff.mp hdisjoint y
        simp only [together_cons,ih htail]
        grind
      · have hrest : Together (if (s.diff p).isEmpty then ps else split (s.diff p) ps) x y ↔
            Together ps x y ∧ (s.diff p).test x = (s.diff p).test y ∨
              (s.diff p).test x = true ∧ (s.diff p).test y = true ∧
                ¬ Together ps x x ∧ ¬ Together ps y y := by
          split
          · rename_i hempty
            simp [isEmpty_iff.mp hempty x,isEmpty_iff.mp hempty y]
          · exact ih htail
        simp only [together_cons,together_append,together_optional,hrest,test_inter,test_diff]
        cases s.test x <;> cases s.test y <;> grind

theorem covered_split {s : ByteSet} {ps : List ByteSet} {x : UInt8}
    (h : ps.Pairwise fun s t => s.isDisjoint t = true) :
    Together (split s ps) x x ↔ Together ps x x ∨ s.test x = true := by
  rw [together_split h]
  by_cases hx : Together ps x x <;> simp [hx]

section Disjoint

variable {p q s : ByteSet} {ps : List ByteSet}

/-- What lies in the first piece and outside of `s` stays clear of the pieces that come after it. -/
theorem isDisjoint_split (h : (p :: ps).Pairwise fun s t => s.isDisjoint t = true)
    (hq : ∀ x, q.test x = true → p.test x = true ∧ s.test x = false) :
    ∀ k ∈ split s ps, q.isDisjoint k = true := by
  intro k hk
  refine isDisjoint_iff.mpr fun x hx => ?_
  cases hkx : k.test x with
  | false => rfl
  | true =>
    have hcovered := (covered_split (List.pairwise_cons.mp h).2).mp ⟨k,hk,hkx,hkx⟩
    rw [(hq x hx).2] at hcovered
    exact absurd (hcovered.resolve_right Bool.false_ne_true) (not_together_of_head h (hq x hx).1)

theorem isDisjoint_split_diff (h : (p :: ps).Pairwise fun s t => s.isDisjoint t = true)
    (hq : ∀ x, q.test x = true → p.test x = true) :
    ∀ k ∈ (if (s.diff p).isEmpty then ps else split (s.diff p) ps), q.isDisjoint k = true := by
  intro k hk
  split at hk
  · refine isDisjoint_iff.mpr fun x hx => ?_
    exact isDisjoint_iff.mp ((List.pairwise_cons.mp h).1 k hk) x (hq x hx)
  · refine isDisjoint_split h (fun x hx => ⟨hq x hx,?_⟩) k hk
    rw [test_diff,hq x hx]
    simp

theorem mem_optional {k : ByteSet} (hk : k ∈ if p.isEmpty then [] else [p]) : k = p := by
  split at hk
  · cases hk
  · exact List.mem_singleton.mp hk

theorem pairwise_split (h : ps.Pairwise fun s t => s.isDisjoint t = true) :
    (split s ps).Pairwise fun s t => s.isDisjoint t = true := by
  induction ps generalizing s with
  | nil => exact List.pairwise_singleton _ _
  | cons p ps ih =>
    have htail := (List.pairwise_cons.mp h).2
    rw [split]
    split
    · exact h
    · split
      · rename_i hdisjoint
        refine List.pairwise_cons.mpr ⟨isDisjoint_split h fun x hx => ⟨hx,?_⟩,ih htail⟩
        cases hs : s.test x with
        | false => rfl
        | true =>
          rw [isDisjoint_iff.mp hdisjoint x hs] at hx
          cases hx
      · have hrest : (if (s.diff p).isEmpty then ps else split (s.diff p) ps).Pairwise
            fun s t => s.isDisjoint t = true := by
          split
          · exact htail
          · exact ih htail
        refine List.pairwise_cons.mpr ⟨?_,List.pairwise_append.mpr ⟨?_,hrest,?_⟩⟩
        · intro k hk
          rcases List.mem_append.mp hk with hk | hk
          · rw [mem_optional hk]
            refine isDisjoint_iff.mpr fun x hx => ?_
            rw [test_inter,Bool.and_eq_true] at hx
            rw [test_diff,hx.1]
            simp
          · refine isDisjoint_split_diff h (fun x hx => ?_) k hk
            rw [test_inter,Bool.and_eq_true] at hx
            exact hx.2
        · split
          · exact .nil
          · exact List.pairwise_singleton _ _
        · intro q hq k hk
          rw [mem_optional hq]
          refine isDisjoint_split_diff h (fun x hx => ?_) k hk
          rw [test_diff,Bool.and_eq_true] at hx
          exact hx.1

end Disjoint

theorem nonempty_split {s : ByteSet} {ps : List ByteSet} (hs : s.isEmpty = false)
    (h : ∀ p ∈ ps, p.isEmpty = false) : ∀ p ∈ split s ps, p.isEmpty = false := by
  induction ps generalizing s with
  | nil =>
    intro p hp
    rw [List.mem_singleton.mp hp]
    exact hs
  | cons p ps ih =>
    have hhead := h p List.mem_cons_self
    have htail : ∀ q ∈ ps, q.isEmpty = false := fun q hq => h q (List.mem_cons_of_mem _ hq)
    rw [split]
    split
    · exact h
    · split
      · intro q hq
        rcases List.mem_cons.mp hq with rfl | hq
        · exact hhead
        · exact ih hs htail q hq
      · rename_i hdisjoint
        intro q hq
        rcases List.mem_cons.mp hq with rfl | hq
        · exact Bool.not_eq_true _ ▸ hdisjoint
        · rcases List.mem_append.mp hq with hq | hq
          · split at hq
            · cases hq
            · rename_i hkept
              rw [List.mem_singleton.mp hq]
              exact Bool.not_eq_true _ ▸ hkept
          · split at hq
            · exact htail q hq
            · rename_i hleft
              exact ih (Bool.not_eq_true _ ▸ hleft) htail q hq

/-- The pieces are the classes of the sets `ss`. -/
structure Separates (a : Atoms) (ss : List ByteSet) : Prop where
  nonempty : ∀ p ∈ a.pieces, p.isEmpty = false
  disjoint : a.pieces.Pairwise fun p q => p.isDisjoint q = true
  together : ∀ x y, Together a.pieces x y ↔
    (∃ s ∈ ss, s.test x = true) ∧ ∀ s ∈ ss, s.test x = s.test y

theorem separates_empty : empty.Separates [] where
  nonempty p hp := by cases hp
  disjoint := .nil
  together x y := by simp [Together,empty]

theorem Separates.insert {a : Atoms} {ss : List ByteSet} (h : a.Separates ss) (s : ByteSet) :
    (a.insert s).Separates (ss ++ [s]) := by
  unfold Atoms.insert
  split
  · rename_i hempty
    have hs := isEmpty_iff.mp hempty
    refine ⟨h.nonempty,h.disjoint,fun x y => ?_⟩
    rw [h.together]
    grind
  · rename_i hempty
    refine ⟨nonempty_split (Bool.not_eq_true _ ▸ hempty) h.nonempty,pairwise_split h.disjoint,
      fun x y => ?_⟩
    rw [together_split h.disjoint]
    simp only [h.together]
    grind

theorem Separates.insertAll {a : Atoms} {ss : List ByteSet} (h : a.Separates ss)
    (ts : List ByteSet) : (a.insertAll ts).Separates (ss ++ ts) := by
  induction ts generalizing a ss with
  | nil => simpa [Atoms.insertAll] using h
  | cons t ts ih =>
    have hall := ih (h.insert t)
    rw [List.append_assoc] at hall
    exact hall

theorem separates_ofList (ss : List ByteSet) : (ofList ss).Separates ss := by
  have h := separates_empty.insertAll ss
  rw [List.nil_append] at h
  exact h

namespace Separates

variable {a : Atoms} {ss : List ByteSet} (h : a.Separates ss)

include h

theorem covers (x : UInt8) :
    (∃ p ∈ a.pieces, p.test x = true) ↔ ∃ s ∈ ss, s.test x = true := by
  have hx := h.together x x
  simp only [Together,and_self,implies_true,and_true] at hx
  exact hx

theorem exists_test {p : ByteSet} (hp : p ∈ a.pieces) : ∃ x, p.test x = true :=
  isEmpty_eq_false_iff.mp (h.nonempty p hp)

theorem isSubset_iff_test {p s : ByteSet} {x : UInt8} (hp : p ∈ a.pieces) (hx : p.test x = true)
    (hs : s ∈ ss) : p.isSubset s = true ↔ s.test x = true := by
  rw [isSubset_iff]
  constructor
  · intro hsub
    exact hsub x hx
  · intro hsx y hy
    have hsame := ((h.together x y).mp ⟨p,hp,hx,hy⟩).2 s hs
    rw [← hsame,hsx]

end Separates

end Atoms

end LexAutomata.ByteSet
