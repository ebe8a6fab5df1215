import LexAutomata.Proofs.NodeSet.Scan
import Mathlib.Data.Set.Card
import Mathlib.Logic.Relation
import Mathlib.Order.Bounds.Defs

namespace LexAutomata

/-- An empty move leads from `a` to `b`. -/
def EdgeList.Silent (es : EdgeList) (a b : Nat) : Prop := ⟨a, b, .epsilon⟩ ∈ es

instance (es : EdgeList) (a b : Nat) : Decidable (es.Silent a b) :=
  inferInstanceAs (Decidable (_ ∈ es))

theorem EdgeList.walk_nil_iff {es : EdgeList} {a b : Nat} :
    es.Walk a [] b ↔ Relation.ReflTransGen es.Silent a b := by
  constructor
  · intro h
    generalize hw : ([] : List UInt8) = w at h
    induction h with
    | nil => exact .refl
    | epsilon he _ ih => exact .head he (ih hw)
    | byte => cases hw
  · intro h
    induction h with
    | refl => exact .nil a
    | tail _ hlast ih => exact ih.append (.single_epsilon hlast)

namespace NodeSet

/-- The sets that the operations make out of empty ones. -/
inductive Made : NodeSet → Prop where
  | empty (bound : Nat) : Made (empty bound)
  | insert {s : NodeSet} (n : Nat) : Made s → Made (s.insert n)
  | erase {s : NodeSet} (n : Nat) : Made s → Made (s.erase n).2
  | close {s : NodeSet} (es : EdgeList) : Made s → Made (s.close es)
  | addImage {s : NodeSet} (sources : NodeSet) (es : EdgeList) (piece : ByteSet) :
      Made s → Made (s.addImage sources es piece)

variable {s : NodeSet} {es fs : EdgeList} {n : Nat}

theorem Made.singleton (bound n : Nat) : (singleton bound n).Made := .insert n (.empty bound)

theorem Made.wellFormed (h : s.Made) : s.WellFormed := by
  induction h with
  | empty bound => exact wellFormed_empty bound
  | insert n _ ih => exact wellFormed_insert ih n
  | erase n _ ih => exact wellFormed_erase ih n
  | close es _ ih => exact (growing_close es).wellFormed ih
  | addImage sources es piece _ ih => exact (growing_addImage sources es piece).wellFormed ih

theorem Made.count_eq (h : s.Made) : s.count = {n | s.contains n = true}.ncard := by
  have hset : {n | s.contains n = true} = ↑s.toList.toFinset := by
    ext n
    simp
  rw [hset,Set.ncard_coe_finset,List.toFinset_card_of_nodup (nodup_toList s)]
  exact h.wellFormed.2

theorem close?_eq_ok (hlt : ∀ e ∈ es, e.label = .epsilon → e.target < s.bound) :
    s.close? es = .ok (s.close es) := by
  rw [close?,if_neg]
  intro hany
  obtain ⟨⟨a,b⟩,hm,hfound⟩ := List.any_eq_true.mp hany
  have hb := of_decide_eq_true (Bool.and_eq_true_iff.mp hfound).2
  rw [bound_close] at hb
  exact absurd (hlt _ (EdgeList.mem_epsilons.mp hm) rfl) (Nat.not_lt.mpr hb)

section Closure

variable (hs : s.WellFormed) (hlt : ∀ e ∈ es, e.label = .epsilon → e.target < s.bound)

include hs hlt

theorem contains_close_iff_silent :
    (s.close es).contains n = true ↔
      ∃ m, s.contains m = true ∧ Relation.ReflTransGen es.Silent m n := by
  rw [contains_close hs hlt]
  simp only [EdgeList.walk_nil_iff]

theorem close_isLeast :
    IsLeast {T : Set Nat | (∀ n, s.contains n = true → n ∈ T) ∧
      ∀ a ∈ T, ∀ b, es.Silent a b → b ∈ T} {n | (s.close es).contains n = true} := by
  refine ⟨⟨fun n => (growing_close es).contains,?_⟩,?_⟩
  · intro a ha b hab
    exact contains_close_of_edge hs hab (hlt _ hab rfl) ha
  · rintro T ⟨hmembers,hclosed⟩ n hn
    obtain ⟨m,hm,hreach⟩ := (contains_close_iff_silent hs hlt).mp hn
    clear hn
    induction hreach with
    | refl => exact hmembers m hm
    | tail _ hlast ih => exact hclosed _ ih _ hlast

theorem close_congr (hsame : ∀ a b, fs.Silent a b ↔ es.Silent a b) : s.close fs = s.close es := by
  have hlt' : ∀ e ∈ fs, e.label = .epsilon → e.target < s.bound := by
    rintro ⟨a,b,label⟩ he hlabel
    cases hlabel
    exact hlt _ ((hsame a b).mp he) rfl
  have hsilent : fs.Silent = es.Silent := by
    ext a b
    exact hsame a b
  refine ext_of_contains ((growing_close fs).wellFormed hs) ((growing_close es).wellFormed hs) ?_ ?_
  · rw [bound_close,bound_close]
  · intro n
    rw [Bool.eq_iff_iff,contains_close_iff_silent hs hlt',contains_close_iff_silent hs hlt,hsilent]

theorem close_close : (s.close es).close es = s.close es := by
  have hwf := (growing_close es).wellFormed hs
  have hlt' : ∀ e ∈ es, e.label = .epsilon → e.target < (s.close es).bound := by
    rw [bound_close]
    exact hlt
  refine ext_of_contains ((growing_close es).wellFormed hwf) hwf (bound_close _ _) ?_
  intro n
  rw [Bool.eq_iff_iff]
  constructor
  · intro hn
    obtain ⟨m,hm,hreach⟩ := (contains_close hwf hlt').mp hn
    exact closed_close hs hlt m n hm hreach
  · exact (growing_close es).contains

end Closure

/-- The loop over the empty moves ends after at most one scan more than there is room for nodes. It leaves
the nodes that empty moves reach from the members, which is the least set that has the members and is closed
under empty moves. Another order of the edges, and any edge twice, makes no difference, and neither does a
second closure; the count is the number of members before and after. -/
theorem close_fixpoint (h : s.Made) (es : EdgeList)
    (hlt : ∀ e ∈ es, e.label = .epsilon → e.target < s.bound) :
    (∃ count ≤ s.bound - s.count + 1, Loop (epsilonScan es) s count (.ok (s.close es))) ∧
    (∀ n, (s.close es).contains n = true ↔
      ∃ m, s.contains m = true ∧ Relation.ReflTransGen es.Silent m n) ∧
    IsLeast {T : Set Nat | (∀ n, s.contains n = true → n ∈ T) ∧
      ∀ a ∈ T, ∀ b, es.Silent a b → b ∈ T} {n | (s.close es).contains n = true} ∧
    (∀ fs : EdgeList, (∀ a b, fs.Silent a b ↔ es.Silent a b) → s.close fs = s.close es) ∧
    (s.close es).close es = s.close es ∧
    s.count = {n | s.contains n = true}.ncard ∧
    (s.close es).count = {n | (s.close es).contains n = true}.ncard := by
  have hs := h.wellFormed
  refine ⟨?_,fun n => contains_close_iff_silent hs hlt,close_isLeast hs hlt,
    fun fs => close_congr hs hlt,close_close hs hlt,h.count_eq,(Made.close es h).count_eq⟩
  obtain ⟨count,hle,hloop⟩ := exists_loop_close? hs es
  rw [close?_eq_ok hlt] at hloop
  exact ⟨count,hle,hloop⟩

/-- A cycle behind the first node, its edges in the order that takes the most scans. -/
theorem close_fixpoint_of_cycle :
    let es : EdgeList := [⟨3, 1, .epsilon⟩, ⟨2, 3, .epsilon⟩, ⟨1, 2, .epsilon⟩, ⟨0, 1, .epsilon⟩]
    let s := ((singleton 5 4).insert 0).erase 4
    s.2.Made ∧ (∃ count ≤ 5, Loop (epsilonScan es) s.2 count (.ok (s.2.close es))) ∧
      (s.2.close es).contains 3 = true ∧ s.2.close es.reverse = s.2.close es ∧
      (s.2.close es).count = 4 := by
  intro es s
  have hmade : s.2.Made := .erase 4 (.insert 0 (.singleton 5 4))
  obtain ⟨hloop,hreach,_,horder,_,_,_⟩ := close_fixpoint hmade es (by decide)
  refine ⟨hmade,?_,?_,?_,?_⟩
  · exact hloop
  · refine (hreach 3).mpr ⟨0,by decide,?_⟩
    exact .head (b := 1) (by decide) (.head (b := 2) (by decide) (.single (by decide)))
  · exact horder _ fun a b => List.mem_reverse
  · decide +kernel

end NodeSet

end LexAutomata
