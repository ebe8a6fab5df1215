import LexAutomata.Proofs.Fragment.Shape

namespace LexAutomata

/-- The node lies on a walk from `a` to `b`. -/
def EdgeList.Between (es : EdgeList) (a b n : Nat) : Prop := ∃ u v, es.Walk a u n ∧ es.Walk n v b

namespace EdgeList.Between

variable {es fs : EdgeList} {a b c d n offset : Nat} {u v w : List UInt8}

theorem first (h : es.Walk a w b) : es.Between a b a := ⟨[],w,.nil a,h⟩

theorem last (h : es.Walk a w b) : es.Between a b b := ⟨w,[],h,.nil b⟩

theorem mono (hsub : ∀ e ∈ es, e ∈ fs) (h : es.Between a b n) : fs.Between a b n := by
  obtain ⟨u,v,hu,hv⟩ := h
  exact ⟨u,v,hu.mono hsub,hv.mono hsub⟩

theorem rebase (hsub : ∀ e ∈ es, e.rebase offset ∈ fs) (h : es.Between a b n) :
    fs.Between (a + offset) (b + offset) (n + offset) := by
  obtain ⟨u,v,hu,hv⟩ := h
  exact ⟨u,v,hu.rebase hsub,hv.rebase hsub⟩

theorem extend (h : es.Between a b n) (hin : es.Walk c u a) (hout : es.Walk b v d) :
    es.Between c d n := by
  obtain ⟨x,y,hx,hy⟩ := h
  exact ⟨u ++ x,y ++ v,hin.append hx,hy.append hout⟩

theorem exists_walk (h : es.Between a b n) : ∃ w, es.Walk a w b := by
  obtain ⟨u,v,hu,hv⟩ := h
  exact ⟨u ++ v,hu.append hv⟩

end EdgeList.Between

namespace Fragment

def Trim (f : Fragment) : Prop := ∀ n < f.size, f.edges.Between f.start f.final n

/-- The label of the only edge can be read, since no set without members is a label. -/
theorem exists_reads_ofSet (s : ByteSet) :
    ∃ w, (if s.isEmpty then Label.epsilon else .bytes s).Reads w := by
  cases hempty : s.isEmpty with
  | true => exact ⟨[],rfl⟩
  | false =>
    obtain ⟨x,hx⟩ := ByteSet.isEmpty_eq_false_iff.mp hempty
    exact ⟨[x],x,hx,rfl⟩

namespace Trim

variable {f g : Fragment}

theorem exists_walk (h : f.Trim) (hf : f.WellFormed) : ∃ w, f.edges.Walk f.start w f.final :=
  (h f.start hf.start_lt).exists_walk

theorem ofSet (s : ByteSet) : (ofSet s).Trim := by
  obtain ⟨w,hw⟩ := exists_reads_ofSet s
  have hwalk : (Fragment.ofSet s).edges.Walk 0 w 1 := .single (mem_edges_ofSet.mpr rfl) hw
  intro n hn
  have hcases : n = 0 ∨ n = 1 := by
    rw [size_ofSet] at hn
    omega
  rcases hcases with rfl | rfl
  · exact .first hwalk
  · exact .last hwalk

theorem optional (h : f.Trim) : f.optional.Trim := by
  intro n hn
  exact (h n hn).mono fun e he => mem_edges_optional.mpr (.inl he)

theorem wrap {k : Fragment} (h : f.Trim) (hf : f.WellFormed) (hsize : k.size = f.size + 2)
    (hstart : k.start = f.size) (hfinal : k.final = f.size + 1) (hsub : ∀ e ∈ f.edges, e ∈ k.edges)
    (hin : ⟨f.size, f.start, .epsilon⟩ ∈ k.edges)
    (hout : ⟨f.final, f.size + 1, .epsilon⟩ ∈ k.edges) : k.Trim := by
  have hinside : ∀ n < f.size, k.edges.Between f.size (f.size + 1) n := by
    intro n hn
    exact ((h n hn).mono hsub).extend (.single_epsilon hin) (.single_epsilon hout)
  obtain ⟨w,hw⟩ := (hinside f.start hf.start_lt).exists_walk
  intro n hn
  rw [hstart,hfinal]
  have hcases : n < f.size ∨ n = f.size ∨ n = f.size + 1 := by omega
  rcases hcases with hn | rfl | rfl
  · exact hinside n hn
  · exact .first hw
  · exact .last hw

theorem star (h : f.Trim) (hf : f.WellFormed) : f.star.Trim := by
  apply h.wrap hf rfl rfl rfl
  · intro e he
    exact mem_edges_star.mpr (.inl he)
  · simp [mem_edges_star]
  · simp [mem_edges_star]

theorem plus (h : f.Trim) (hf : f.WellFormed) : f.plus.Trim := by
  apply h.wrap hf rfl rfl rfl
  · intro e he
    exact mem_edges_plus.mpr (.inl he)
  · simp [mem_edges_plus]
  · simp [mem_edges_plus]

theorem concat (hf : f.Trim) (hg : g.Trim) (hwf : f.WellFormed) (hwg : g.WellFormed) :
    (f.concat g).Trim := by
  have hsub : ∀ e ∈ f.edges, e ∈ (f.concat g).edges := fun e he => mem_edges_concat.mpr (.inl he)
  have hcopy : ∀ e ∈ g.edges, e.rebase f.size ∈ (f.concat g).edges :=
    fun e he => mem_edges_concat.mpr (.inr (.inl ⟨e,he,rfl⟩))
  have hjoin : ⟨f.final, g.start + f.size, .epsilon⟩ ∈ (f.concat g).edges :=
    mem_edges_concat.mpr (.inr (.inr rfl))
  -- a node of one operand needs a whole walk through the other
  obtain ⟨u,hu⟩ := hf.exists_walk hwf
  obtain ⟨v,hv⟩ := hg.exists_walk hwg
  intro n hn
  show (f.concat g).edges.Between f.start (g.final + f.size) n
  by_cases hleft : n < f.size
  · exact ((hf n hleft).mono hsub).extend (.nil _) (.epsilon hjoin (hv.rebase hcopy))
  · rw [size_concat] at hn
    obtain ⟨k,rfl⟩ := Nat.exists_eq_add_of_le' (Nat.le_of_not_lt hleft)
    have hk : k < g.size := by omega
    have hin := (hu.mono hsub).append (.single_epsilon hjoin)
    exact ((hg k hk).rebase hcopy).extend hin (.nil _)

theorem choice (hf : f.Trim) (hg : g.Trim) (hwf : f.WellFormed) : (f.choice g).Trim := by
  have hsub : ∀ e ∈ f.edges, e ∈ (f.choice g).edges := fun e he => mem_edges_choice.mpr (.inl he)
  have hcopy : ∀ e ∈ g.edges, e.rebase f.size ∈ (f.choice g).edges :=
    fun e he => mem_edges_choice.mpr (.inr (.inl ⟨e,he,rfl⟩))
  have hleft : ∀ n < f.size,
      (f.choice g).edges.Between (f.size + g.size) (f.size + g.size + 1) n := by
    intro n hn
    refine ((hf n hn).mono hsub).extend (.single_epsilon ?_) (.single_epsilon ?_)
    all_goals simp [mem_edges_choice]
  have hright : ∀ k < g.size,
      (f.choice g).edges.Between (f.size + g.size) (f.size + g.size + 1) (k + f.size) := by
    intro k hk
    refine ((hg k hk).rebase hcopy).extend (.single_epsilon ?_) (.single_epsilon ?_)
    all_goals simp [mem_edges_choice]
  obtain ⟨w,hw⟩ := (hleft f.start hwf.start_lt).exists_walk
  intro n hn
  rw [size_choice] at hn
  show (f.choice g).edges.Between (f.size + g.size) (f.size + g.size + 1) n
  have hcases : n < f.size ∨ (∃ k < g.size, n = k + f.size) ∨ n = f.size + g.size ∨
      n = f.size + g.size + 1 := by
    by_cases hn' : f.size ≤ n ∧ n < f.size + g.size
    · exact .inr (.inl ⟨n - f.size,by omega,by omega⟩)
    · omega
  rcases hcases with hn | ⟨k,hk,rfl⟩ | rfl | rfl
  · exact hleft n hn
  · exact hright k hk
  · exact .first hw
  · exact .last hw

end Trim

theorem Built.trim {f : Fragment} (h : f.Built) : f.Trim := by
  induction h with
  | ofSet s => exact .ofSet s
  | optional _ ih => exact ih.optional
  | star hf ih => exact ih.star hf.wellFormed
  | plus hf ih => exact ih.plus hf.wellFormed
  | concat hf hg ihf ihg => exact ihf.concat ihg hf.wellFormed hg.wellFormed
  | choice hf _ ihf ihg => exact ihf.choice ihg hf.wellFormed

end Fragment

end LexAutomata
