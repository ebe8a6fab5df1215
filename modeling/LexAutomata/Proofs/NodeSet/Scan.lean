import LexAutomata.Proofs.NodeSet.Closure

namespace LexAutomata.NodeSet

section Scan

variable {α : Type} {enabled : NodeSet → α → Bool} {target : α → Nat} {moves : List α} {s : NodeSet}

/-- One scan. A move that is enabled when its turn comes inserts its target, which may enable later ones;
the answer tells whether any target was new. A target beyond the bound is a fault. -/
def scan (enabled : NodeSet → α → Bool) (target : α → Nat) :
    List α → NodeSet → Except Fault (Bool × NodeSet)
  | [], s => .ok (false, s)
  | m :: moves, s =>
    if enabled s m then do
      let (added, grown) ← s.insert? (target m)
      let (more, last) ← scan enabled target moves grown
      return (added || more, last)
    else scan enabled target moves s

/-- The loop of scans from `s`: how many there are, and what they come to. -/
inductive Loop (scan : NodeSet → Except Fault (Bool × NodeSet)) :
    NodeSet → Nat → Except Fault NodeSet → Prop where
  | fault {s : NodeSet} {e : Fault} : scan s = .error e → Loop scan s 1 (.error e)
  | same {s t : NodeSet} : scan s = .ok (false, t) → Loop scan s 1 (.ok t)
  | more {s t : NodeSet} {count : Nat} {outcome : Except Fault NodeSet} :
      scan s = .ok (true, t) → Loop scan t count outcome → Loop scan s (count + 1) outcome

/-- A move that is enabled stays so while the set grows. -/
def Lasting (enabled : NodeSet → α → Bool) : Prop :=
  ∀ (s t : NodeSet) (m : α), (∀ n, s.contains n = true → t.contains n = true) →
    enabled s m = true → enabled t m = true

def pass (enabled : NodeSet → α → Bool) (target : α → Nat) (moves : List α) (s : NodeSet) : NodeSet :=
  moves.foldl (fun s m => if enabled s m then s.insert (target m) else s) s

theorem growing_pass : Growing (pass enabled target moves) := growing_foldl enabled target moves

theorem pass_cons_of_enabled {m : α} (h : enabled s m = true) :
    pass enabled target (m :: moves) s = pass enabled target moves (s.insert (target m)) := by
  rw [pass,List.foldl_cons,if_pos h]
  rfl

theorem pass_cons_of_not_enabled {m : α} (h : ¬ enabled s m = true) :
    pass enabled target (m :: moves) s = pass enabled target moves s := by
  rw [pass,List.foldl_cons,if_neg h]
  rfl

theorem scan_cons_of_not_enabled {m : α} (h : ¬ enabled s m = true) :
    scan enabled target (m :: moves) s = scan enabled target moves s := by
  rw [scan,if_neg h]

theorem scan_cons_of_beyond {m : α} (h : enabled s m = true) (hm : s.bound ≤ target m) :
    scan enabled target (m :: moves) s = .error .outOfRange := by
  rw [scan,if_pos h,insert?,if_neg (Nat.not_lt.mpr hm)]
  rfl

theorem scan_cons_of_below {m : α} (h : enabled s m = true) (hm : target m < s.bound) :
    scan enabled target (m :: moves) s =
      (scan enabled target moves (s.insert (target m))).map fun r =>
        (!s.contains (target m) || r.1, r.2) := by
  rw [scan,if_pos h,insert?,if_pos hm]
  show (scan enabled target moves (s.insert (target m)) >>= _) = _
  cases scan enabled target moves (s.insert (target m)) <;> rfl

/-- What a scan can do: meet a node beyond the bound; add something; or find that there is nothing to add
and every enabled target in its place. -/
theorem scan_cases (target : α → Nat) (moves : List α) (hs : s.WellFormed)
    (henabled : Lasting enabled) :
    (scan enabled target moves s = .error .outOfRange ∧
      ∃ m ∈ moves, enabled (pass enabled target moves s) m = true ∧ s.bound ≤ target m) ∨
    (scan enabled target moves s = .ok (true, pass enabled target moves s) ∧
      s.count < (pass enabled target moves s).count) ∨
    (scan enabled target moves s = .ok (false, s) ∧ pass enabled target moves s = s ∧
      ∀ m ∈ moves, enabled s m = true → target m < s.bound) := by
  induction moves generalizing s with
  | nil => exact .inr (.inr ⟨rfl,rfl,fun m hm => by cases hm⟩)
  | cons m moves ih =>
    by_cases h : enabled s m = true
    · by_cases hlt : target m < s.bound
      · rw [scan_cons_of_below h hlt,pass_cons_of_enabled h]
        have hgrown := wellFormed_insert hs (target m)
        rcases ih hgrown with ⟨hscan,k,hk,hke,hkb⟩ | ⟨hscan,hcount⟩ | ⟨hscan,hpass,hbelow⟩
        · rw [hscan]
          rw [bound_insert] at hkb
          exact .inl ⟨rfl,k,List.mem_cons_of_mem _ hk,hke,hkb⟩
        · rw [hscan]
          have hle := count_le_of_contains hs hgrown fun n => contains_insert_of_contains
          refine .inr (.inl ⟨?_,Nat.lt_of_le_of_lt hle hcount⟩)
          rw [Except.map,Bool.or_true]
        · rw [hscan,hpass]
          cases hnew : s.contains (target m) with
          | false =>
            -- the rest of the scan adds nothing, but this target is new
            rw [count_insert hlt hnew]
            exact .inr (.inl ⟨rfl,Nat.lt_succ_self _⟩)
          | true =>
            rw [insert_of_contains hnew] at hbelow ⊢
            refine .inr (.inr ⟨rfl,rfl,?_⟩)
            intro k hk hke
            rcases List.mem_cons.mp hk with rfl | hk
            · exact hlt
            · exact hbelow k hk hke
      · have hm := Nat.le_of_not_lt hlt
        rw [scan_cons_of_beyond h hm]
        refine .inl ⟨rfl,m,List.mem_cons_self,?_,hm⟩
        exact henabled s _ m (fun n => growing_pass.contains) h
    · rw [scan_cons_of_not_enabled h,pass_cons_of_not_enabled h]
      rcases ih hs with ⟨hscan,k,hk,hke,hkb⟩ | hadds | ⟨hscan,hpass,hbelow⟩
      · exact .inl ⟨hscan,k,List.mem_cons_of_mem _ hk,hke,hkb⟩
      · exact .inr (.inl hadds)
      · refine .inr (.inr ⟨hscan,hpass,?_⟩)
        intro k hk hke
        rcases List.mem_cons.mp hk with rfl | hk
        · exact absurd hke h
        · exact hbelow k hk hke

end Scan

section Loop

variable {α : Type} {enabled : NodeSet → α → Bool} {target : α → Nat} {moves : List α} {s : NodeSet}

/-- The saturated set, unless a move that is enabled in it leads beyond the bound. -/
def settle (enabled : NodeSet → α → Bool) (target : α → Nat) (moves : List α) (s : NodeSet) :
    Except Fault NodeSet :=
  let last := saturate (pass enabled target moves) s
  if moves.any fun m => enabled last m && decide (s.bound ≤ target m) then .error .outOfRange
  else .ok last

theorem contains_saturate_of_step {f : NodeSet → NodeSet} (hf : Growing f) (hs : s.WellFormed)
    {n : Nat} (hn : (f s).contains n = true) : (saturate f s).contains n = true := by
  have hwf := hf.wellFormed hs
  have hbound := hf.bound_eq s
  have hroom := count_le_bound hwf
  rw [saturate]
  split
  · exact hf.saturate.contains hn
  · rename_i hnot
    exact contains_of_count_le hs hwf (fun n => hf.contains) (by omega) hn

theorem loop_of_fault (henabled : Lasting enabled) (hs : s.WellFormed)
    (hscan : scan enabled target moves s = .error .outOfRange)
    (hfault : ∃ m ∈ moves, enabled (pass enabled target moves s) m = true ∧ s.bound ≤ target m) :
    Loop (scan enabled target moves) s 1 (settle enabled target moves s) := by
  obtain ⟨m,hm,he,hb⟩ := hfault
  have hlast : enabled (saturate (pass enabled target moves) s) m = true :=
    henabled _ _ m (fun n => contains_saturate_of_step growing_pass hs) he
  have hsettle : settle enabled target moves s = .error .outOfRange := by
    rw [settle,if_pos]
    exact List.any_eq_true.mpr ⟨m,hm,Bool.and_eq_true_iff.mpr ⟨hlast,decide_eq_true hb⟩⟩
  rw [hsettle]
  exact .fault hscan

/-- The loop ends with the saturated set, or with the fault. Each scan but the last adds a node. -/
theorem exists_loop (target : α → Nat) (moves : List α) (henabled : Lasting enabled)
    (hs : s.WellFormed) :
    ∃ count ≤ s.bound - s.count + 1,
      Loop (scan enabled target moves) s count (settle enabled target moves s) := by
  have hgrow : Growing (pass enabled target moves) := growing_pass
  induction s using saturate.induct (pass enabled target moves) with
  | case1 s next h ih =>
    simp only [next] at h ih
    obtain ⟨hcount,hroom,hbound⟩ := h
    have hlast : saturate (pass enabled target moves) s =
        saturate (pass enabled target moves) (pass enabled target moves s) := by
      rw [saturate,if_pos ⟨hcount,hroom,hbound⟩]
    have hsettle : settle enabled target moves s =
        settle enabled target moves (pass enabled target moves s) := by
      rw [settle,settle,hbound,hlast]
    rcases scan_cases target moves hs henabled with
      ⟨hscan,hfault⟩ | ⟨hscan,_⟩ | ⟨_,hsame,_⟩
    · exact ⟨1,by omega,loop_of_fault henabled hs hscan hfault⟩
    · obtain ⟨count,hle,hloop⟩ := ih (hgrow.wellFormed hs)
      rw [hsettle]
      exact ⟨count + 1,by omega,.more hscan hloop⟩
    · rw [hsame] at hcount
      exact absurd hcount (Nat.lt_irrefl _)
  | case2 s next h =>
    simp only [next] at h
    have hbound := hgrow.bound_eq s
    have hroom := count_le_bound (hgrow.wellFormed hs)
    rcases scan_cases target moves hs henabled with
      ⟨hscan,hfault⟩ | ⟨_,hcount⟩ | ⟨hscan,_,hbelow⟩
    · exact ⟨1,by omega,loop_of_fault henabled hs hscan hfault⟩
    · omega
    · refine ⟨1,by omega,?_⟩
      have hlast : saturate (pass enabled target moves) s = s := by rw [saturate,if_neg h]
      have hsettle : settle enabled target moves s = .ok s := by
        rw [settle,hlast,if_neg]
        intro hany
        obtain ⟨m,hm,hfound⟩ := List.any_eq_true.mp hany
        obtain ⟨he,hb⟩ := Bool.and_eq_true_iff.mp hfound
        exact absurd (hbelow m hm he) (Nat.not_lt.mpr (of_decide_eq_true hb))
      rw [hsettle]
      exact .same hscan

end Loop

section Grown

variable {s : NodeSet}

/-- The scans of the closure: a move is enabled once its source is a member. -/
def epsilonScan (es : EdgeList) : NodeSet → Except Fault (Bool × NodeSet) :=
  scan (fun s m => s.contains m.1) (fun m => m.2) es.epsilons

/-- The scans of the image: the moves that leave `sources` on the whole piece are enabled throughout. A
target that is in already adds nothing. -/
def imageScan (sources : NodeSet) (es : EdgeList) (piece : ByteSet) :
    NodeSet → Except Fault (Bool × NodeSet) :=
  scan (fun _ m => sources.contains m.1 && piece.isSubset m.2.1) (fun m => m.2.2) es.byteMoves

theorem exists_loop_close? (hs : s.WellFormed) (es : EdgeList) :
    ∃ count ≤ s.bound - s.count + 1, Loop (epsilonScan es) s count (s.close? es) := by
  have hlasting : Lasting fun (s : NodeSet) (m : Nat × Nat) => s.contains m.1 :=
    fun _ _ m hsub => hsub m.1
  obtain ⟨count,hle,hloop⟩ := exists_loop (fun m => m.2) es.epsilons hlasting hs
  refine ⟨count,hle,?_⟩
  have hclose : s.close? es = settle (fun s m => s.contains m.1) (fun m => m.2) es.epsilons s := by
    rw [close?,bound_close]
    rfl
  rw [hclose]
  exact hloop

theorem exists_loop_addImage? (hs : s.WellFormed) (sources : NodeSet) (es : EdgeList)
    (piece : ByteSet) :
    ∃ count ≤ s.bound - s.count + 1,
      Loop (imageScan sources es piece) s count (s.addImage? sources es piece) :=
  exists_loop _ _ (fun _ _ _ _ h => h) hs

end Grown

end LexAutomata.NodeSet
