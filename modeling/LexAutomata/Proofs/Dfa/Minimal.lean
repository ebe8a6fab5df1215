import LexAutomata.Proofs.Dfa.Equivalence

namespace LexAutomata.Dfa

variable {d : Dfa} {byName : Bool} {blocks : Partition} {i j : Nat}

theorem Divided.size_eq_iff (h : d.Divided blocks) :
    blocks.size = d.size ↔ ∀ i < d.size, ∀ j < d.size, NodeSet.Joined blocks.sets i j → i = j := by
  constructor
  · intro hsize i _ j _ hij
    exact h.eq_of_joined (Nat.le_of_eq hsize.symm) hij
  · intro hapart
    have hnodup : ((List.range d.size).map (blockOf blocks)).Nodup := by
      apply List.nodup_range.map_on
      intro i hi j hj hij
      rw [List.mem_range] at hi hj
      exact hapart i hi j hj ((h.blockOf_eq_iff hi hj).mp hij)
    have hsub : (List.range d.size).map (blockOf blocks) ⊆ List.range blocks.size := by
      intro k hk
      obtain ⟨i,hi,rfl⟩ := List.mem_map.mp hk
      exact List.mem_range.mpr (h.blockOf_lt (List.mem_range.mp hi))
    have hle := (hnodup.subperm hsub).length_le
    rw [List.length_map,List.length_range,List.length_range] at hle
    exact Nat.le_antisymm h.size_le hle

theorem Equivalent.merged (h : d.Equivalent byName i j) : d.Equivalent false i j := by
  intro w
  obtain ⟨hfailed,halike⟩ := h w
  exact ⟨hfailed,fun hrun => ⟨(halike hrun).1,fun hfalse => by cases hfalse⟩⟩

theorem Reduced.of_merged (h : d.Reduced false) (byName : Bool) : d.Reduced byName := by
  intro i hi j hj hij
  exact h i hi j hj hij.merged

/-- A reduced automaton comes back itself, and any other one gets smaller. -/
theorem exists_minimize_or_smaller (d : Dfa) (byName : Bool) :
    ∃ m, d.minimize byName = .ok m ∧
      (m.unchanged = true ∧ m.dfa = d ∧ d.Reduced byName ∨
        m.unchanged = false ∧ m.dfa.size < d.size ∧ ¬ d.Reduced byName) := by
  obtain ⟨blocks,count,hrefine,hdivided,hrefines,hstable⟩ := exists_refine_initialPartition d byName
  obtain ⟨m,hm,hmerged⟩ := minimize_of_refine hdivided hrefine
  have hreduced : blocks.size = d.size ↔ d.Reduced byName := by
    rw [hdivided.size_eq_iff]
    refine forall₂_congr fun i hi => forall₂_congr fun j hj => ?_
    rw [joined_iff_equivalent hrefines hstable hi hj]
  refine ⟨m,hm,?_⟩
  rcases hmerged with ⟨hunchanged,hsame,hsize⟩ | ⟨hunchanged,hlt,hnodes,_⟩
  · exact .inl ⟨hunchanged,hsame,hreduced.mp hsize⟩
  · have hsmaller : m.dfa.size < d.size := by
      rw [Dfa.size,hnodes,List.length_map]
      exact hlt
    exact .inr ⟨hunchanged,hsmaller,fun h => Nat.ne_of_lt hlt (hreduced.mpr h)⟩

theorem Reduced.minimize_self (h : d.Reduced byName) :
    ∃ m, d.minimize byName = .ok m ∧ m.unchanged = true ∧ m.dfa = d := by
  obtain ⟨m,hm,⟨hunchanged,hsame,_⟩ | ⟨_,_,hnot⟩⟩ := exists_minimize_or_smaller d byName
  · exact ⟨m,hm,hunchanged,hsame⟩
  · exact absurd h hnot

/-- The given automaton comes back if and only if no two of its nodes are equivalent, and otherwise the
result is smaller. Minimizing the result again gives it back; so it does with names told apart, if they
were merged before. -/
theorem minimize_idempotent (hd : d.Deterministic) (byName : Bool) :
    ∃ m, d.minimize byName = .ok m ∧
      (m.unchanged = true ↔ d.Reduced byName) ∧ (m.unchanged = true → m.dfa = d) ∧
      (m.unchanged = false → m.dfa.size < d.size) ∧
      ∀ again, again = byName ∨ byName = false →
        ∃ k, m.dfa.minimize again = .ok k ∧ k.unchanged = true ∧ k.dfa = m.dfa := by
  obtain ⟨m,f,hm,hprojects,hf⟩ := exists_minimize_classes hd byName
  have hreduced : m.dfa.Reduced byName := hprojects.reduced hf
  have hsecond : ∀ again, again = byName ∨ byName = false → m.dfa.Reduced again := by
    rintro again (rfl | rfl)
    · exact hreduced
    · exact hreduced.of_merged again
  obtain ⟨k,hk,hcases⟩ := exists_minimize_or_smaller d byName
  obtain rfl : m = k := Except.ok.inj (hm.symm.trans hk)
  refine ⟨m,hm,?_,?_,?_,fun again hagain => (hsecond again hagain).minimize_self⟩
  · rcases hcases with ⟨hunchanged,_,hfree⟩ | ⟨hunchanged,_,hfound⟩
    · exact iff_of_true hunchanged hfree
    · exact iff_of_false (hunchanged ▸ Bool.false_ne_true) hfound
  · intro hunchanged
    rcases hcases with ⟨_,hsame,_⟩ | ⟨hchanged,_,_⟩
    · exact hsame
    · cases hunchanged.symm.trans hchanged
  · intro hchanged
    rcases hcases with ⟨hunchanged,_,_⟩ | ⟨_,hsmaller,_⟩
    · cases hunchanged.symm.trans hchanged
    · exact hsmaller

/-- With names merged, `digits` gets smaller, and what it becomes is not made smaller with names apart. -/
theorem minimize_idempotent_of_digits :
    digits.Deterministic ∧ ∃ m, digits.minimize false = .ok m ∧ m.dfa.size < digits.size ∧
      ∃ k, m.dfa.minimize true = .ok k ∧ k.unchanged = true ∧ k.dfa = m.dfa := by
  obtain ⟨m,hm,hunchanged,_,hsmaller,hsecond⟩ := minimize_idempotent deterministic_digits false
  have hchanged : m.unchanged = false := by
    rw [Bool.eq_false_iff]
    intro h
    have hsame := hunchanged.mp h 1 (by decide) 2 (by decide) equivalent_digits
    cases hsame
  exact ⟨deterministic_digits,m,hm,hsmaller hchanged,hsecond true (.inr rfl)⟩

end LexAutomata.Dfa
