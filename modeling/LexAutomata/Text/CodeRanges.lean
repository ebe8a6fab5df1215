namespace LexAutomata.Text

/-- Whether `c` lies in one of the ascending ranges, given by their first and last members. -/
def inRanges (c : Nat) : List (Nat × Nat) → Bool
  | [] => false
  | (first, last) :: rest => if c < first then false else decide (c ≤ last) || inRanges c rest

/-- Each range ends before the next one. -/
def Ascending : List (Nat × Nat) → Bool
  | [] => true
  | [(first, last)] => decide (first ≤ last)
  | (first, last) :: (next, stop) :: rest =>
    decide (first ≤ last ∧ last < next) && Ascending ((next, stop) :: rest)

theorem ascending_cons {first last : Nat} {rest : List (Nat × Nat)}
    (h : Ascending ((first, last) :: rest) = true) :
    first ≤ last ∧ (∀ r ∈ rest, last < r.1) ∧ Ascending rest = true := by
  induction rest generalizing first last with
  | nil => simpa [Ascending] using h
  | cons second rest ih =>
    obtain ⟨next,stop⟩ := second
    simp only [Ascending,Bool.and_eq_true,decide_eq_true_eq] at h
    obtain ⟨⟨hle,hlt⟩,htail⟩ := h
    obtain ⟨hnext,hrest,_⟩ := ih htail
    refine ⟨hle,?_,htail⟩
    intro r hr
    rcases List.mem_cons.mp hr with rfl | hr
    · exact hlt
    · exact Nat.lt_trans (Nat.lt_of_lt_of_le hlt hnext) (hrest r hr)

/-- What the search leaves out, once `c` is below a range, does not hold `c` either. -/
theorem inRanges_iff {rs : List (Nat × Nat)} (h : Ascending rs = true) (c : Nat) :
    inRanges c rs = true ↔ ∃ r ∈ rs, r.1 ≤ c ∧ c ≤ r.2 := by
  induction rs with
  | nil => simp [inRanges]
  | cons range rest ih =>
    obtain ⟨first,last⟩ := range
    obtain ⟨hle,hrest,htail⟩ := ascending_cons h
    rw [inRanges]
    split
    · rename_i hbelow
      suffices hnone : ∀ r ∈ (first, last) :: rest, ¬ (r.1 ≤ c ∧ c ≤ r.2) by simpa using hnone
      intro r hr hin
      rcases List.mem_cons.mp hr with rfl | hr
      · omega
      · have hafter := hrest r hr
        omega
    · rename_i hfrom
      have hfirst : c ≤ last ↔ first ≤ c ∧ c ≤ last := by omega
      simp only [Bool.or_eq_true,decide_eq_true_eq,ih htail,List.mem_cons,exists_eq_or_imp]
      rw [← hfirst]

end LexAutomata.Text
