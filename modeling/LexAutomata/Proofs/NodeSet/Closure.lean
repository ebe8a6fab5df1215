import LexAutomata.NodeSet.Reach
import LexAutomata.Proofs.ByteSet.Atoms
import LexAutomata.Proofs.NodeSet.Count
import LexAutomata.Proofs.Walk

namespace LexAutomata.NodeSet

structure Growing (pass : NodeSet → NodeSet) : Prop where
  wellFormed : ∀ {s}, s.WellFormed → (pass s).WellFormed
  bound_eq : ∀ s, (pass s).bound = s.bound
  contains : ∀ {s n}, s.contains n = true → (pass s).contains n = true

theorem Growing.comp {f g : NodeSet → NodeSet} (hf : Growing f) (hg : Growing g) :
    Growing fun s => f (g s) where
  wellFormed h := hf.wellFormed (hg.wellFormed h)
  bound_eq s := (hf.bound_eq (g s)).trans (hg.bound_eq s)
  contains h := hf.contains (hg.contains h)

theorem growing_insertIf (enabled : NodeSet → Bool) (n : Nat) :
    Growing fun s => if enabled s then s.insert n else s where
  wellFormed {s} h := by
    cases enabled s with
    | false => exact h
    | true => exact wellFormed_insert h n
  bound_eq s := by
    cases enabled s with
    | false => rfl
    | true => exact bound_insert s n
  contains {s m} h := by
    cases enabled s with
    | false => exact h
    | true => exact contains_insert_of_contains h

section Folds

variable {α : Type} {enabled : NodeSet → α → Bool} {target : α → Nat} {moves : List α}

theorem growing_foldl (enabled : NodeSet → α → Bool) (target : α → Nat) (moves : List α) :
    Growing fun s => moves.foldl (fun s m => if enabled s m then s.insert (target m) else s) s := by
  induction moves with
  | nil => exact ⟨id,fun _ => rfl,id⟩
  | cons m moves ih => exact ih.comp (growing_insertIf (enabled · m) (target m))

theorem contains_foldl_of_mem (enabled : NodeSet → α → Bool) (target : α → Nat) {s : NodeSet}
    {m : α} (hm : m ∈ moves)
    (henabled : ∀ t : NodeSet, (∀ n, s.contains n = true → t.contains n = true) → enabled t m = true)
    (hlt : target m < s.bound) :
    (moves.foldl (fun s m => if enabled s m then s.insert (target m) else s) s).contains (target m) =
      true := by
  induction moves generalizing s with
  | nil => simp at hm
  | cons k moves ih =>
    rw [List.foldl_cons]
    rcases List.mem_cons.mp hm with rfl | hm
    · rw [if_pos (henabled s fun _ h => h)]
      apply (growing_foldl enabled target moves).contains
      rw [contains_insert]
      simp [hlt]
    · have hg := growing_insertIf (enabled · k) (target k)
      apply ih hm
      · intro t ht
        exact henabled t fun n hn => ht n (hg.contains hn)
      · rw [hg.bound_eq s]
        exact hlt

/-- Whatever holds of the members and of the targets of all moves enabled among such members holds of
the members afterwards. -/
theorem foldl_subset {P : Nat → Prop} {s : NodeSet}
    (hmoves : ∀ m ∈ moves, ∀ t : NodeSet, (∀ n, t.contains n = true → P n) → enabled t m = true →
      P (target m)) (hs : ∀ n, s.contains n = true → P n) :
    ∀ n, (moves.foldl (fun s m => if enabled s m then s.insert (target m) else s) s).contains n =
      true → P n := by
  induction moves generalizing s with
  | nil => exact hs
  | cons m moves ih =>
    refine ih (fun k hk => hmoves k (List.mem_cons_of_mem _ hk)) ?_
    intro n hn
    dsimp only at hn
    split at hn
    · rename_i he
      rw [contains_insert,Bool.or_eq_true,Bool.and_eq_true,decide_eq_true_eq] at hn
      rcases hn with hn | ⟨rfl,_⟩
      · exact hs n hn
      · exact hmoves m List.mem_cons_self s hs he
    · exact hs n hn

end Folds

section Saturation

variable {pass : NodeSet → NodeSet} {s : NodeSet}

theorem saturate_induction {P : NodeSet → Prop} (h : P s) (hpass : ∀ t, P t → P (pass t)) :
    P (saturate pass s) := by
  induction s using saturate.induct pass with
  | case1 s next hn ih =>
    rw [saturate,if_pos hn]
    exact ih (hpass s h)
  | case2 s next hn =>
    rw [saturate,if_neg hn]
    exact h

theorem Growing.saturate (hg : Growing pass) : Growing (saturate pass) where
  wellFormed h := saturate_induction h fun _ => hg.wellFormed
  bound_eq s := saturate_induction (P := fun t => t.bound = s.bound) rfl fun t ht =>
    (hg.bound_eq t).trans ht
  contains {_ n} h := saturate_induction (P := fun t => t.contains n = true) h fun _ => hg.contains

theorem contains_saturate_of_pass (hg : Growing pass) (hs : s.WellFormed) {n : Nat}
    (hn : (pass (saturate pass s)).contains n = true) : (saturate pass s).contains n = true := by
  induction s using saturate.induct pass with
  | case1 s next h ih =>
    simp only [next] at *
    rw [saturate,if_pos h] at hn ⊢
    exact ih (hg.wellFormed hs) hn
  | case2 s next h =>
    simp only [next] at *
    rw [saturate,if_neg h] at hn ⊢
    have hwf := hg.wellFormed hs
    have hb := hg.bound_eq s
    have hroom := count_le_bound hwf
    refine contains_of_count_le hs hwf (fun n => hg.contains) ?_ hn
    omega

end Saturation

section Closure

variable {s : NodeSet} {es : EdgeList} {n : Nat}

theorem growing_epsilonPass (moves : List (Nat × Nat)) : Growing (epsilonPass moves) :=
  growing_foldl (fun s (m : Nat × Nat) => s.contains m.1) (fun m => m.2) moves

theorem growing_close (es : EdgeList) : Growing fun s => s.close es :=
  (growing_epsilonPass es.epsilons).saturate

@[simp] theorem bound_close (s : NodeSet) (es : EdgeList) : (s.close es).bound = s.bound :=
  (growing_close es).bound_eq s

theorem contains_close_of_edge (hs : s.WellFormed) {a b : Nat} (he : ⟨a, b, .epsilon⟩ ∈ es)
    (hlt : b < s.bound) (ha : (s.close es).contains a = true) : (s.close es).contains b = true := by
  refine contains_saturate_of_pass (growing_epsilonPass _) hs ?_
  refine contains_foldl_of_mem (fun s (m : Nat × Nat) => s.contains m.1) (fun m => m.2)
    (EdgeList.mem_epsilons.mpr he) ?_ ?_
  · intro t ht
    exact ht a ha
  · exact lt_of_lt_of_eq hlt (bound_close s es).symm

theorem contains_close (hs : s.WellFormed)
    (hlt : ∀ e ∈ es, e.label = .epsilon → e.target < s.bound) :
    (s.close es).contains n = true ↔ ∃ m, s.contains m = true ∧ es.Walk m [] n := by
  constructor
  · intro hn
    let Reached := fun k => ∃ m, s.contains m = true ∧ es.Walk m [] k
    have hpass : ∀ t : NodeSet, (∀ k, t.contains k = true → Reached k) →
        ∀ k, (epsilonPass es.epsilons t).contains k = true → Reached k := by
      intro t ht
      refine foldl_subset ?_ ht
      rintro ⟨a,b⟩ hmove u hu ha
      obtain ⟨m,hm,hwalk⟩ := hu a ha
      exact ⟨m,hm,hwalk.append (.single_epsilon (EdgeList.mem_epsilons.mp hmove))⟩
    exact saturate_induction (P := fun t => ∀ k, t.contains k = true → Reached k)
      (fun k hk => ⟨k,hk,.nil k⟩) hpass n hn
  · rintro ⟨m,hm,hwalk⟩
    have hstart : (s.close es).contains m = true := (growing_close es).contains hm
    clear hm
    generalize hw : ([] : List UInt8) = w at hwalk
    induction hwalk with
    | nil a => exact hstart
    | epsilon he _ ih => exact ih (contains_close_of_edge hs he (hlt _ he rfl) hstart) hw
    | byte => cases hw

/-- A closed set has nothing to gain from empty moves. -/
def Closed (s : NodeSet) (es : EdgeList) : Prop :=
  ∀ a b, s.contains a = true → es.Walk a [] b → s.contains b = true

theorem closed_close (hs : s.WellFormed)
    (hlt : ∀ e ∈ es, e.label = .epsilon → e.target < s.bound) : (s.close es).Closed es := by
  intro a b ha hwalk
  obtain ⟨m,hm,hfirst⟩ := (contains_close hs hlt).mp ha
  exact (contains_close hs hlt).mpr ⟨m,hm,hfirst.append hwalk⟩

end Closure

section Steps

variable {s sources : NodeSet} {es : EdgeList} {piece : ByteSet} {x : UInt8} {n : Nat}

theorem growing_imagePass (sources : NodeSet) (piece : ByteSet)
    (moves : List (Nat × ByteSet × Nat)) : Growing (imagePass sources piece moves) :=
  growing_foldl (fun _ (m : Nat × ByteSet × Nat) => sources.contains m.1 && piece.isSubset m.2.1)
    (fun m => m.2.2) moves

theorem growing_addImage (sources : NodeSet) (es : EdgeList) (piece : ByteSet) :
    Growing fun s => s.addImage sources es piece :=
  (growing_imagePass sources piece es.byteMoves).saturate

theorem contains_addImage (hs : s.WellFormed) :
    (s.addImage sources es piece).contains n = true ↔
      s.contains n = true ∨ n < s.bound ∧ ∃ a label, ⟨a, n, .bytes label⟩ ∈ es ∧
        sources.contains a = true ∧ piece.isSubset label = true := by
  have hg := growing_addImage sources es piece
  constructor
  · intro hn
    let Image := fun k => ∃ a label, ⟨a, k, .bytes label⟩ ∈ es ∧
      sources.contains a = true ∧ piece.isSubset label = true
    have hpass : ∀ t : NodeSet, (∀ k, t.contains k = true → s.contains k = true ∨ Image k) →
        ∀ k, (imagePass sources piece es.byteMoves t).contains k = true →
          s.contains k = true ∨ Image k := by
      intro t ht
      refine foldl_subset ?_ ht
      rintro ⟨a,label,b⟩ hmove _ _ he
      obtain ⟨ha,hsub⟩ := Bool.and_eq_true_iff.mp he
      exact .inr ⟨a,label,EdgeList.mem_byteMoves.mp hmove,ha,hsub⟩
    have hlt := (hg.wellFormed hs).1 n hn
    rw [hg.bound_eq] at hlt
    have hsound := saturate_induction
      (P := fun t => ∀ k, t.contains k = true → s.contains k = true ∨ Image k)
      (fun k hk => .inl hk) hpass n hn
    exact hsound.imp_right fun h => ⟨hlt,h⟩
  · rintro (hn | ⟨hlt,a,label,he,ha,hsub⟩)
    · exact hg.contains hn
    · refine contains_saturate_of_pass (growing_imagePass _ _ _) hs ?_
      refine contains_foldl_of_mem
        (fun _ (m : Nat × ByteSet × Nat) => sources.contains m.1 && piece.isSubset m.2.1)
        (fun m => m.2.2) (EdgeList.mem_byteMoves.mpr he) ?_ ?_
      · intro t _
        exact Bool.and_eq_true_iff.mpr ⟨ha,hsub⟩
      · exact lt_of_lt_of_eq hlt (hg.bound_eq s).symm

theorem growing_stepPass (sources : NodeSet) (es : EdgeList) (x : UInt8) :
    Growing fun s => es.byteMoves.foldl
      (fun s m => if sources.contains m.1 && m.2.1.test x then s.insert m.2.2 else s) s :=
  growing_foldl (fun _ (m : Nat × ByteSet × Nat) => sources.contains m.1 && m.2.1.test x)
    (fun m => m.2.2) es.byteMoves

theorem wellFormed_step (sources : NodeSet) (es : EdgeList) (x : UInt8) :
    (sources.step es x).WellFormed :=
  (growing_stepPass sources es x).wellFormed (wellFormed_empty _)

@[simp] theorem bound_step (sources : NodeSet) (es : EdgeList) (x : UInt8) :
    (sources.step es x).bound = sources.bound :=
  (growing_stepPass sources es x).bound_eq _

theorem contains_step :
    (sources.step es x).contains n = true ↔
      n < sources.bound ∧ ∃ a label, ⟨a, n, .bytes label⟩ ∈ es ∧
        sources.contains a = true ∧ label.test x = true := by
  constructor
  · intro hn
    have hlt := (wellFormed_step sources es x).1 n hn
    rw [bound_step] at hlt
    refine ⟨hlt,foldl_subset (P := fun k => ∃ a label, ⟨a, k, .bytes label⟩ ∈ es ∧
        sources.contains a = true ∧ label.test x = true) ?_ ?_ n hn⟩
    · rintro ⟨a,label,b⟩ hmove _ _ he
      obtain ⟨ha,hx⟩ := Bool.and_eq_true_iff.mp he
      exact ⟨a,label,EdgeList.mem_byteMoves.mp hmove,ha,hx⟩
    · intro k hk
      rw [contains_empty] at hk
      exact Bool.noConfusion hk
  · rintro ⟨hlt,a,label,he,ha,hx⟩
    refine contains_foldl_of_mem
      (fun _ (m : Nat × ByteSet × Nat) => sources.contains m.1 && m.2.1.test x)
      (fun m => m.2.2) (EdgeList.mem_byteMoves.mpr he) ?_ hlt
    intro t _
    exact Bool.and_eq_true_iff.mpr ⟨ha,hx⟩

/-- Moving a closed set along the byte moves on `x` and closing it again is reading `x`. -/
theorem contains_close_of_moves {t : NodeSet} (hclosed : sources.Closed es) (ht : t.WellFormed)
    (hbound : ∀ e ∈ es, e.target < t.bound)
    (hmoves : ∀ k, t.contains k = true ↔ k < t.bound ∧ ∃ a label, ⟨a, k, .bytes label⟩ ∈ es ∧
      sources.contains a = true ∧ label.test x = true) :
    (t.close es).contains n = true ↔ ∃ a, sources.contains a = true ∧ es.Walk a [x] n := by
  rw [contains_close ht fun e he _ => hbound e he]
  constructor
  · rintro ⟨k,hk,hwalk⟩
    obtain ⟨_,a,label,he,ha,hx⟩ := (hmoves k).mp hk
    exact ⟨a,ha,.byte he hx hwalk⟩
  · rintro ⟨a,ha,hwalk⟩
    obtain ⟨m,k,label,hfirst,he,hx,hlast⟩ := EdgeList.Walk.singleton_iff.mp hwalk
    exact ⟨k,(hmoves k).mpr ⟨hbound _ he,m,label,he,hclosed a m ha hfirst,hx⟩,hlast⟩

end Steps

section Pieces

variable {s sources : NodeSet} {es : EdgeList} {piece label : ByteSet} {x : UInt8} {n : Nat}

/-- The sets on the byte moves that leave the members. -/
def leaving (sources : NodeSet) (es : EdgeList) : List ByteSet :=
  (es.byteMoves.filter fun m => sources.contains m.1).map (·.2.1)

theorem mem_leaving :
    label ∈ sources.leaving es ↔ ∃ a b, ⟨a, b, .bytes label⟩ ∈ es ∧ sources.contains a = true := by
  simp only [leaving,List.mem_map,List.mem_filter,Prod.exists,EdgeList.mem_byteMoves]
  grind

/-- Whole pieces are as good as single bytes: a label that leaves `sources` covers the piece of a byte
if and only if it holds the byte. -/
theorem contains_addImage_of_piece (hs : s.WellFormed)
    (hpiece : piece ∈ (ByteSet.Atoms.ofList (sources.leaving es)).pieces) (hx : piece.test x = true) :
    (s.addImage sources es piece).contains n = true ↔
      s.contains n = true ∨ n < s.bound ∧ ∃ a label, ⟨a, n, .bytes label⟩ ∈ es ∧
        sources.contains a = true ∧ label.test x = true := by
  rw [contains_addImage hs]
  refine or_congr_right (and_congr_right fun _ => exists_congr fun a => exists_congr fun label => ?_)
  refine and_congr_right fun he => and_congr_right fun ha => ?_
  exact (ByteSet.Atoms.separates_ofList _).isSubset_iff_test hpiece hx (mem_leaving.mpr ⟨a,n,he,ha⟩)

end Pieces

end LexAutomata.NodeSet
