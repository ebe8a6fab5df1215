import LexAutomata.Fragment
import LexAutomata.Proofs.Walk

namespace LexAutomata.Fragment

structure WellFormed (f : Fragment) : Prop where
  start_lt : f.start < f.size
  final_lt : f.final < f.size
  start_ne_final : f.start ≠ f.final
  bounded : ∀ e ∈ f.edges, e.source < f.size ∧ e.target < f.size
  no_entry : ∀ e ∈ f.edges, e.target ≠ f.start
  no_exit : ∀ e ∈ f.edges, e.source ≠ f.final

/-- What the combinators build from byte sets. -/
inductive Built : Fragment → Prop where
  | ofSet (s : ByteSet) : Built (ofSet s)
  | optional {f : Fragment} : Built f → Built f.optional
  | star {f : Fragment} : Built f → Built f.star
  | plus {f : Fragment} : Built f → Built f.plus
  | concat {f g : Fragment} : Built f → Built g → Built (f.concat g)
  | choice {f g : Fragment} : Built f → Built g → Built (f.choice g)

theorem Built.emptyMatch : Built emptyMatch := .ofSet .empty

@[simp] theorem size_ofSet (s : ByteSet) : (ofSet s).size = 2 := rfl

@[simp] theorem size_optional (f : Fragment) : f.optional.size = f.size := rfl

@[simp] theorem size_star (f : Fragment) : f.star.size = f.size + 2 := rfl

@[simp] theorem size_plus (f : Fragment) : f.plus.size = f.size + 2 := rfl

@[simp] theorem size_concat (f g : Fragment) : (f.concat g).size = f.size + g.size := rfl

@[simp] theorem size_choice (f g : Fragment) : (f.choice g).size = f.size + g.size + 2 := rfl

section Edges

variable {f g : Fragment} {e : Edge}

theorem mem_edges_ofSet {s : ByteSet} :
    e ∈ (ofSet s).edges ↔ e = ⟨0, 1, if s.isEmpty then .epsilon else .bytes s⟩ := by
  unfold ofSet
  by_cases h : s.isEmpty = true <;> simp [h,EdgeList.mem_addEpsilon]

theorem mem_edges_optional :
    e ∈ f.optional.edges ↔ e ∈ f.edges ∨ e = ⟨f.start, f.final, .epsilon⟩ :=
  EdgeList.mem_addEpsilon

theorem mem_edges_star :
    e ∈ f.star.edges ↔ e ∈ f.edges ∨ e = ⟨f.final, f.start, .epsilon⟩ ∨
      e = ⟨f.size, f.size + 1, .epsilon⟩ ∨ e = ⟨f.size, f.start, .epsilon⟩ ∨
      e = ⟨f.final, f.size + 1, .epsilon⟩ := by
  simp only [star,EdgeList.mem_addEpsilon,or_assoc]

theorem mem_edges_plus :
    e ∈ f.plus.edges ↔ e ∈ f.edges ∨ e = ⟨f.final, f.start, .epsilon⟩ ∨
      e = ⟨f.size, f.start, .epsilon⟩ ∨ e = ⟨f.final, f.size + 1, .epsilon⟩ := by
  simp only [plus,EdgeList.mem_addEpsilon,or_assoc]

theorem mem_edges_concat :
    e ∈ (f.concat g).edges ↔ e ∈ f.edges ∨ (∃ k ∈ g.edges, k.rebase f.size = e) ∨
      e = ⟨f.final, g.start + f.size, .epsilon⟩ := by
  simp only [concat,EdgeList.mem_addEpsilon,EdgeList.mem_copyFrom,or_assoc]

theorem mem_edges_choice :
    e ∈ (f.choice g).edges ↔ e ∈ f.edges ∨ (∃ k ∈ g.edges, k.rebase f.size = e) ∨
      e = ⟨f.size + g.size, f.start, .epsilon⟩ ∨
      e = ⟨f.size + g.size, g.start + f.size, .epsilon⟩ ∨
      e = ⟨f.final, f.size + g.size + 1, .epsilon⟩ ∨
      e = ⟨g.final + f.size, f.size + g.size + 1, .epsilon⟩ := by
  simp only [choice,EdgeList.mem_addEpsilon,EdgeList.mem_copyFrom,or_assoc]

end Edges

namespace WellFormed

variable {f g : Fragment}

theorem ofSet (s : ByteSet) : (ofSet s).WellFormed where
  start_lt := Nat.two_pos
  final_lt := Nat.one_lt_two
  start_ne_final := Nat.zero_ne_one
  bounded e he := by
    rw [mem_edges_ofSet.mp he]
    exact ⟨Nat.two_pos,Nat.one_lt_two⟩
  no_entry e he := by
    rw [mem_edges_ofSet.mp he]
    exact Nat.one_ne_zero
  no_exit e he := by
    rw [mem_edges_ofSet.mp he]
    exact Nat.zero_ne_one

theorem optional (h : f.WellFormed) : f.optional.WellFormed where
  start_lt := h.start_lt
  final_lt := h.final_lt
  start_ne_final := h.start_ne_final
  bounded e he := by
    rcases mem_edges_optional.mp he with he | rfl
    · exact h.bounded e he
    · exact ⟨h.start_lt,h.final_lt⟩
  no_entry e he := by
    rcases mem_edges_optional.mp he with he | rfl
    · exact h.no_entry e he
    · exact h.start_ne_final.symm
  no_exit e he := by
    rcases mem_edges_optional.mp he with he | rfl
    · exact h.no_exit e he
    · exact h.start_ne_final

/-- Two new nodes around a fragment, joined to it by empty moves only at its ends. -/
theorem wrap {k : Fragment} (h : f.WellFormed) (hsize : k.size = f.size + 2)
    (hstart : k.start = f.size) (hfinal : k.final = f.size + 1)
    (hedges : ∀ e ∈ k.edges, e ∈ f.edges ∨
      (e.source = f.final ∨ e.source = f.size) ∧ (e.target = f.start ∨ e.target = f.size + 1)) :
    k.WellFormed where
  start_lt := by omega
  final_lt := by omega
  start_ne_final := by omega
  bounded e he := by
    have hs := h.start_lt
    have hf := h.final_lt
    rcases hedges e he with he | ⟨hsource,htarget⟩
    · have := h.bounded e he
      omega
    · omega
  no_entry e he := by
    have hs := h.start_lt
    rcases hedges e he with he | ⟨_,htarget⟩
    · have := h.bounded e he
      omega
    · omega
  no_exit e he := by
    have hf := h.final_lt
    rcases hedges e he with he | ⟨hsource,_⟩
    · have := h.bounded e he
      omega
    · omega

theorem star (h : f.WellFormed) : f.star.WellFormed := by
  refine h.wrap rfl rfl rfl fun e he => ?_
  rcases mem_edges_star.mp he with he | rfl | rfl | rfl | rfl
  · exact .inl he
  all_goals simp

theorem plus (h : f.WellFormed) : f.plus.WellFormed := by
  refine h.wrap rfl rfl rfl fun e he => ?_
  rcases mem_edges_plus.mp he with he | rfl | rfl | rfl
  · exact .inl he
  all_goals simp

theorem concat (hf : f.WellFormed) (hg : g.WellFormed) : (f.concat g).WellFormed where
  start_lt := Nat.lt_add_right _ hf.start_lt
  final_lt := by
    have := hg.final_lt
    show g.final + f.size < f.size + g.size
    omega
  start_ne_final := by
    have := hf.start_lt
    show f.start ≠ g.final + f.size
    omega
  bounded e he := by
    have hfinal := hf.final_lt
    have hstart := hg.start_lt
    rw [size_concat]
    rcases mem_edges_concat.mp he with he | ⟨k,hk,rfl⟩ | rfl
    · have := hf.bounded e he
      omega
    · have := hg.bounded k hk
      simp only [Edge.rebase]
      omega
    · dsimp only
      omega
  no_entry e he := by
    have hstart := hf.start_lt
    show e.target ≠ f.start
    rcases mem_edges_concat.mp he with he | ⟨k,hk,rfl⟩ | rfl
    · exact hf.no_entry e he
    · simp only [Edge.rebase]
      omega
    · dsimp only
      omega
  no_exit e he := by
    have hfinal := hf.final_lt
    show e.source ≠ g.final + f.size
    rcases mem_edges_concat.mp he with he | ⟨k,hk,rfl⟩ | rfl
    · have := hf.bounded e he
      omega
    · have := hg.no_exit k hk
      simp only [Edge.rebase]
      omega
    · dsimp only
      omega

theorem choice (hf : f.WellFormed) (hg : g.WellFormed) : (f.choice g).WellFormed where
  start_lt := Nat.lt_add_of_pos_right Nat.two_pos
  final_lt := Nat.lt_succ_self _
  start_ne_final := Nat.ne_of_lt (Nat.lt_succ_self _)
  bounded e he := by
    have := hf.start_lt
    have := hf.final_lt
    have := hg.start_lt
    have := hg.final_lt
    rw [size_choice]
    rcases mem_edges_choice.mp he with he | ⟨k,hk,rfl⟩ | rfl | rfl | rfl | rfl
    · have := hf.bounded e he
      omega
    · have := hg.bounded k hk
      simp only [Edge.rebase]
      omega
    all_goals
      dsimp only
      omega
  no_entry e he := by
    have := hf.start_lt
    have := hg.start_lt
    show e.target ≠ f.size + g.size
    rcases mem_edges_choice.mp he with he | ⟨k,hk,rfl⟩ | rfl | rfl | rfl | rfl
    · have := hf.bounded e he
      omega
    · have := hg.bounded k hk
      simp only [Edge.rebase]
      omega
    all_goals
      dsimp only
      omega
  no_exit e he := by
    have := hf.final_lt
    have := hg.final_lt
    show e.source ≠ f.size + g.size + 1
    rcases mem_edges_choice.mp he with he | ⟨k,hk,rfl⟩ | rfl | rfl | rfl | rfl
    · have := hf.bounded e he
      omega
    · have := hg.bounded k hk
      simp only [Edge.rebase]
      omega
    all_goals
      dsimp only
      omega

end WellFormed

theorem Built.wellFormed {f : Fragment} (h : f.Built) : f.WellFormed := by
  induction h with
  | ofSet s => exact .ofSet s
  | optional _ ih => exact ih.optional
  | star _ ih => exact ih.star
  | plus _ ih => exact ih.plus
  | concat _ _ hf hg => exact hf.concat hg
  | choice _ _ hf hg => exact hf.choice hg

end LexAutomata.Fragment
