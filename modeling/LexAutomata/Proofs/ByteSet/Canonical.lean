import LexAutomata.Proofs.ByteSet.Memo
import LexAutomata.Proofs.ByteSet.Ranges

namespace LexAutomata.ByteSet

variable {bs : List UInt8} {rs qs : List (UInt8 × UInt8)} {r q : UInt8 × UInt8} {x : UInt8}

section Pass

/-- A byte that comes next after the last range makes it longer; any other byte begins a range of its own.
Nothing comes next after 255. -/
def lengthen (rs : List (UInt8 × UInt8)) (b : UInt8) : List (UInt8 × UInt8) :=
  match rs.getLast? with
  | some (lo, hi) => if hi.toNat + 1 = b.toNat then rs.dropLast ++ [(lo, b)] else rs ++ [(b, b)]
  | none => [(b, b)]

/-- A range in front of others; where the first of them comes next after it, the two are one. -/
def precede (r : UInt8 × UInt8) : List (UInt8 × UInt8) → List (UInt8 × UInt8)
  | [] => [r]
  | q :: rest => if r.2.toNat + 1 = q.1.toNat then (r.1, q.2) :: rest else r :: q :: rest

theorem runs_cons (b : UInt8) (bs : List UInt8) :
    runs (b :: bs) = precede (b, b) (runs bs) := by
  rw [runs]
  cases runs bs with
  | nil => rfl
  | cons q rest => rfl

theorem lengthen_concat (rs : List (UInt8 × UInt8)) (r : UInt8 × UInt8) (b : UInt8) :
    lengthen (rs ++ [r]) b =
      if r.2.toNat + 1 = b.toNat then rs ++ [(r.1, b)] else rs ++ [r] ++ [(b, b)] := by
  simp [lengthen]

theorem precede_precede (r : UInt8 × UInt8) (b : UInt8) (rs : List (UInt8 × UInt8)) :
    precede r (precede (b, b) rs) =
      if r.2.toNat + 1 = b.toNat then precede (r.1, b) rs else r :: precede (b, b) rs := by
  cases rs with
  | nil => rfl
  | cons q rest =>
    by_cases hq : b.toNat + 1 = q.1.toNat
    · simp [precede,hq]
    · simp [precede,hq]

/-- The ranges found so far stay as they are, only the last is still open. -/
theorem foldl_lengthen (rs : List (UInt8 × UInt8)) (r : UInt8 × UInt8) (bs : List UInt8) :
    bs.foldl lengthen (rs ++ [r]) = rs ++ precede r (runs bs) := by
  induction bs generalizing rs r with
  | nil => rfl
  | cons b bs ih =>
    rw [List.foldl_cons,lengthen_concat,runs_cons,precede_precede]
    split
    · rw [ih]
    · rw [ih,List.append_assoc,List.singleton_append]

theorem runs_eq_foldl (bs : List UInt8) : runs bs = bs.foldl lengthen [] := by
  cases bs with
  | nil => rfl
  | cons b bs => exact (runs_cons b bs).trans (foldl_lengthen [] (b, b) bs).symm

end Pass

def Covers (rs : List (UInt8 × UInt8)) (x : UInt8) : Prop := ∃ r ∈ rs, r.1 ≤ x ∧ x ≤ r.2

/-- No range is reversed, and one ends two bytes or more before the next begins. -/
structure Canonical (rs : List (UInt8 × UInt8)) : Prop where
  ordered : ∀ r ∈ rs, r.1 ≤ r.2
  apart : rs.Pairwise fun r q => r.2.toNat + 1 < q.1.toNat

theorem covers_cons : Covers (r :: rs) x ↔ r.1 ≤ x ∧ x ≤ r.2 ∨ Covers rs x := by simp [Covers]

theorem not_covers_nil : ¬ Covers [] x := by simp [Covers]

theorem exists_toNat_eq {n : Nat} (h : n < 256) : ∃ x : UInt8, x.toNat = n :=
  ⟨UInt8.ofNat n,UInt8.toNat_ofNat_of_lt' h⟩

namespace Canonical

theorem head_le (h : Canonical (r :: rs)) : r.1.toNat ≤ r.2.toNat :=
  UInt8.le_iff_toNat_le.mp (h.ordered r List.mem_cons_self)

theorem covers_fst (h : Canonical rs) (hr : r ∈ rs) : Covers rs r.1 :=
  ⟨r,hr,UInt8.le_refl r.1,h.ordered r hr⟩

theorem tail (h : Canonical (r :: rs)) : Canonical rs where
  ordered q hq := h.ordered q (List.mem_cons_of_mem r hq)
  apart := (List.pairwise_cons.mp h.apart).2

/-- The later ranges cover nothing as far as the byte behind the first. -/
theorem lt_of_covers (h : Canonical (r :: rs)) (hx : Covers rs x) : r.2.toNat + 1 < x.toNat := by
  obtain ⟨q,hq,hlo,_⟩ := hx
  have hapart := (List.pairwise_cons.mp h.apart).1 q hq
  have hle := UInt8.le_iff_toNat_le.mp hlo
  omega

theorem fst_le_of_covers (h : Canonical (r :: rs)) (hx : Covers (r :: rs) x) :
    r.1.toNat ≤ x.toNat := by
  rcases covers_cons.mp hx with hhead | htail
  · exact UInt8.le_iff_toNat_le.mp hhead.1
  · have hlt := h.lt_of_covers htail
    have hle := h.head_le
    omega

theorem covers_tail_iff (h : Canonical (r :: rs)) :
    Covers rs x ↔ Covers (r :: rs) x ∧ r.2.toNat < x.toNat := by
  rw [covers_cons]
  constructor
  · intro hx
    have hlt := h.lt_of_covers hx
    exact ⟨.inr hx,by omega⟩
  · intro hx
    apply hx.1.resolve_left
    intro hhead
    have hle := UInt8.le_iff_toNat_le.mp hhead.2
    omega

/-- The byte behind a range is in none. -/
theorem not_covers_next (h : Canonical rs) (hr : r ∈ rs) (hx : x.toNat = r.2.toNat + 1) :
    ¬ Covers rs x := by
  induction rs with
  | nil => cases hr
  | cons q rs ih =>
    rw [covers_cons,not_or,UInt8.le_iff_toNat_le,UInt8.le_iff_toNat_le]
    rcases List.mem_cons.mp hr with rfl | hr
    · refine ⟨by omega,fun hcovers => ?_⟩
      have hlt := h.lt_of_covers hcovers
      omega
    · have hlt := h.lt_of_covers (h.tail.covers_fst hr)
      have hle := UInt8.le_iff_toNat_le.mp (h.tail.ordered r hr)
      exact ⟨by omega,ih h.tail hr⟩

theorem snd_le_of_covers (h : Canonical (r :: rs)) (hle : q.1.toNat ≤ r.2.toNat)
    (hcovers : ∀ x, q.1 ≤ x ∧ x ≤ q.2 → Covers (r :: rs) x) : q.2.toNat ≤ r.2.toNat := by
  by_contra hlt
  have hbound := q.2.toNat_lt
  obtain ⟨x,hx⟩ := exists_toNat_eq (n := r.2.toNat + 1) (by omega)
  apply h.not_covers_next List.mem_cons_self hx
  apply hcovers
  rw [UInt8.le_iff_toNat_le,UInt8.le_iff_toNat_le]
  omega

theorem head_le_head (h : Canonical (r :: rs)) (k : Canonical (q :: qs))
    (hsame : ∀ x, Covers (r :: rs) x ↔ Covers (q :: qs) x) :
    r.1.toNat ≤ q.1.toNat ∧ q.2.toNat ≤ r.2.toNat := by
  have hfst := h.fst_le_of_covers ((hsame q.1).mpr (k.covers_fst List.mem_cons_self))
  have hback := k.fst_le_of_covers ((hsame r.1).mp (h.covers_fst List.mem_cons_self))
  have hle := h.head_le
  refine ⟨hfst,h.snd_le_of_covers (by omega) ?_⟩
  intro x hx
  exact (hsame x).mpr ⟨q,List.mem_cons_self,hx⟩

theorem unique (h : Canonical rs) (k : Canonical qs) (hsame : ∀ x, Covers rs x ↔ Covers qs x) :
    rs = qs := by
  induction rs generalizing qs with
  | nil =>
    cases qs with
    | nil => rfl
    | cons q qs =>
      exact absurd ((hsame q.1).mpr (k.covers_fst List.mem_cons_self)) not_covers_nil
  | cons r rs ih =>
    cases qs with
    | nil => exact absurd ((hsame r.1).mp (h.covers_fst List.mem_cons_self)) not_covers_nil
    | cons q qs =>
      obtain ⟨hfst,hsnd⟩ := h.head_le_head k hsame
      obtain ⟨hfst',hsnd'⟩ := k.head_le_head h fun x => (hsame x).symm
      have hhead : r = q :=
        Prod.ext (UInt8.toNat_inj.mp (Nat.le_antisymm hfst hfst'))
          (UInt8.toNat_inj.mp (Nat.le_antisymm hsnd' hsnd))
      -- with the first range taken away, the same bytes are still covered
      have htail : rs = qs := by
        apply ih h.tail k.tail
        intro x
        rw [h.covers_tail_iff,k.covers_tail_iff,hsame,hhead]
      rw [hhead,htail]

/-- A byte before all that is covered can be put in front. -/
theorem precede {b : UInt8} (h : Canonical rs) (hb : ∀ x, Covers rs x → b < x) :
    Canonical (precede (b, b) rs) := by
  cases rs with
  | nil => exact ⟨by simp [ByteSet.precede],List.pairwise_singleton _ _⟩
  | cons q rest =>
    have hlt := UInt8.lt_iff_toNat_lt.mp (hb q.1 (h.covers_fst List.mem_cons_self))
    have hle := h.head_le
    rw [ByteSet.precede]
    split
    case isTrue =>
      have hordered : b ≤ q.2 := UInt8.le_iff_toNat_le.mpr (by omega)
      exact ⟨List.forall_mem_cons.mpr ⟨hordered,h.tail.ordered⟩,
        List.pairwise_cons.mpr (List.pairwise_cons.mp h.apart)⟩
    case isFalse hgap =>
      refine ⟨List.forall_mem_cons.mpr ⟨UInt8.le_refl b,h.ordered⟩,
        List.pairwise_cons.mpr ⟨?_,h.apart⟩⟩
      -- no range begins before the first, which is itself more than one byte away from `b`
      intro p hp
      have hfirst := h.fst_le_of_covers (h.covers_fst hp)
      dsimp only at hgap ⊢
      omega

end Canonical

theorem pairwise_allBytes : allBytes.Pairwise (· < ·) := by
  apply List.pairwise_map.mpr
  apply List.pairwise_lt_range.imp_of_mem
  intro m n hm hn hlt
  rw [List.mem_range] at hm hn
  rw [UInt8.lt_iff_toNat_lt,UInt8.toNat_ofNat_of_lt' hm,UInt8.toNat_ofNat_of_lt' hn]
  exact hlt

theorem canonical_runs (h : bs.Pairwise (· < ·)) : Canonical (runs bs) := by
  induction bs with
  | nil => exact ⟨by simp [runs],.nil⟩
  | cons b bs ih =>
    obtain ⟨hleast,hrest⟩ := List.pairwise_cons.mp h
    rw [runs_cons]
    apply (ih hrest).precede
    intro x hx
    exact hleast x (((runs_cover bs).2 x).mpr hx)

theorem canonical_ranges (s : ByteSet) : Canonical s.ranges :=
  canonical_runs (pairwise_allBytes.filter s.test)

/-- The set holds in addition what the ranges cover that were put into it one after the other. -/
theorem test_foldl_insertRange (rs : List (UInt8 × UInt8)) (t : Tracked) (x : UInt8) :
    (rs.foldl (fun t r => (t.insertRange r.1 r.2).2) t).set.test x = true ↔
      t.set.test x = true ∨ Covers rs x := by
  induction rs generalizing t with
  | nil => simp [Covers]
  | cons r rs ih =>
    rw [List.foldl_cons,ih,Tracked.insertRange_set,covers_cons,test_union,test_range]
    simp [or_assoc]

/-- The runs of a set, collected in one pass over its members, are not reversed and in order, and between
two of them a byte is missing. They cover the members, and no other list of such ranges does. Sets are
equal if and only if their runs are, and an empty set into which the runs are put is the set again. -/
theorem ranges_canonical (s : ByteSet) :
    s.ranges = s.toList.foldl lengthen [] ∧
    (∀ r ∈ s.ranges, r.1 ≤ r.2) ∧
    (s.ranges.Pairwise fun r q => ∃ x, r.2 < x ∧ x < q.1 ∧ s.test x = false) ∧
    (∀ x, s.test x = true ↔ Covers s.ranges x) ∧
    (∀ rs, Canonical rs → (∀ x, s.test x = true ↔ Covers rs x) → rs = s.ranges) ∧
    (∀ t : ByteSet, s.ranges = t.ranges ↔ s = t) ∧
    (s.ranges.foldl (fun t r => (t.insertRange r.1 r.2).2) Tracked.empty).set = s := by
  have h := canonical_ranges s
  have hcovers : ∀ x, s.test x = true ↔ Covers s.ranges x := fun x => test_iff_ranges
  refine ⟨runs_eq_foldl _,h.ordered,?_,hcovers,?_,fun t => ranges_injective.eq_iff,?_⟩
  · apply h.apart.imp_of_mem
    intro r q hr _ hgap
    have hbound := q.1.toNat_lt
    obtain ⟨x,hx⟩ := exists_toNat_eq (n := r.2.toNat + 1) (by omega)
    have hnone : s.test x = false := by
      rw [← Bool.not_eq_true,hcovers]
      exact h.not_covers_next hr hx
    exact ⟨x,UInt8.lt_iff_toNat_lt.mpr (by omega),UInt8.lt_iff_toNat_lt.mpr (by omega),hnone⟩
  · intro rs hrs hsame
    apply hrs.unique h
    intro x
    rw [← hsame,hcovers]
  · apply ext
    intro x
    rw [Bool.eq_iff_iff,test_foldl_insertRange,hcovers]
    simp [Tracked.empty]

/-- The first and the last byte and one between them, which were inserted in another order. -/
theorem ranges_canonical_of_both_ends :
    let s := ofList [255, 0, 97, 254]
    let rs : List (UInt8 × UInt8) := [(0, 0), (97, 97), (254, 255)]
    Canonical rs ∧ (∀ x, s.test x = true ↔ Covers rs x) ∧ s.ranges = rs ∧
      (rs.foldl (fun t r => (t.insertRange r.1 r.2).2) Tracked.empty).set = s := by
  intro s rs
  have hrs : Canonical rs := ⟨by simp [rs],by simp [rs]⟩
  have hcovers : ∀ x, s.test x = true ↔ Covers rs x := by
    intro x
    have hbound := x.toNat_lt
    simp only [s,rs,test_ofList,decide_eq_true_eq,List.mem_cons,List.not_mem_nil,covers_cons,
      not_covers_nil,or_false,← UInt8.toNat_inj,UInt8.le_iff_toNat_le,UInt8.reduceToNat,
      UInt8.toNat_zero]
    omega
  obtain ⟨_,_,_,_,hunique,_,hagain⟩ := ranges_canonical s
  have hranges : s.ranges = rs := (hunique rs hrs hcovers).symm
  rw [hranges] at hagain
  exact ⟨hrs,hcovers,hranges,hagain⟩

end LexAutomata.ByteSet
