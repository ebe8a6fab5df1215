import LexAutomata.Proofs.TaggedNfa.Live
import Mathlib.Computability.EpsilonNFA
import Mathlib.Data.Set.Function

namespace LexAutomata.TaggedNfa

variable {n : TaggedNfa} {S : Set Nat} {p q i j : Nat} {v w : List UInt8}

/-- The moves on single bytes, and on none. -/
def toεNFA (n : TaggedNfa) : εNFA UInt8 Nat where
  step q move :=
    match move with
    | none => {p | ⟨q, p, .epsilon⟩ ∈ n.edges}
    | some x => {p | ∃ label, ⟨q, p, .bytes label⟩ ∈ n.edges ∧ label.test x = true}
  start := {n.start}
  accept := {q | ∃ k ∈ n.finals, k.node = q}

section Walks

theorem mem_εClosure_of_walk (hp : p ∈ n.toεNFA.εClosure S) (h : n.edges.Walk p [] q) :
    q ∈ n.toεNFA.εClosure S := by
  generalize hw : ([] : List UInt8) = w at h
  induction h with
  | nil => exact hp
  | epsilon he _ ih => exact ih (εNFA.εClosure.step _ _ he hp) hw
  | byte => cases hw

theorem mem_εClosure_iff : q ∈ n.toεNFA.εClosure S ↔ ∃ p ∈ S, n.edges.Walk p [] q := by
  constructor
  · intro h
    induction h with
    | base s hs => exact ⟨s,hs,.nil s⟩
    | step s t ht _ ih =>
      obtain ⟨p,hp,hwalk⟩ := ih
      exact ⟨p,hp,hwalk.append (.single_epsilon ht)⟩
  · intro hfrom
    obtain ⟨p,hp,hwalk⟩ := hfrom
    exact mem_εClosure_of_walk (.base p hp) hwalk

theorem mem_eval_iff : q ∈ n.toεNFA.eval w ↔ n.edges.Walk n.start w q := by
  induction w using List.reverseRecOn generalizing q with
  | nil =>
    rw [εNFA.eval_nil,mem_εClosure_iff]
    exact exists_eq_left
  | append_singleton w x ih =>
    rw [εNFA.eval_append_singleton,εNFA.mem_stepSet_iff,EdgeList.Walk.append_iff]
    simp only [ih,mem_εClosure_iff,EdgeList.Walk.singleton_iff]
    constructor
    · intro hfrom
      obtain ⟨p,hp,k,⟨label,he,hx⟩,hq⟩ := hfrom
      exact ⟨p,hp,p,k,label,.nil p,he,hx,hq⟩
    · intro hfrom
      obtain ⟨p,hp,m,k,label,hm,he,hx,hq⟩ := hfrom
      have hall := hp.append hm
      rw [List.append_nil] at hall
      exact ⟨m,hall,k,⟨label,he,hx⟩,hq⟩

end Walks

/-- The nodes in the set of that number. -/
def Frontier.members (t : Frontier) (id : Nat) : Set Nat :=
  {q | ∃ s, t.table.get? id = some s ∧ s.contains q = true}

section Numbers

variable {t : Frontier} {d : Dfa}

theorem Tracks.members_eq (h : n.Tracks t.table (some i) w) : t.members i = n.toεNFA.eval w := by
  obtain ⟨s,hs,hreached⟩ := h
  ext q
  rw [mem_eval_iff,← hreached.walks]
  constructor
  · intro hfrom
    obtain ⟨r,hr,hq⟩ := hfrom
    rwa [Option.some.inj (hs.symm.trans hr)]
  · intro hq
    exact ⟨s,hs,hq⟩

theorem Tracks.of_eval_eq (h : n.Tracks t.table (some i) v)
    (heq : n.toεNFA.eval v = n.toεNFA.eval w) : n.Tracks t.table (some i) w := by
  obtain ⟨s,hs,hwf,hbound,hwalks⟩ := h
  refine ⟨s,hs,hwf,hbound,fun q => ?_⟩
  rw [hwalks,← mem_eval_iff,heq,mem_eval_iff]

variable (h : n.Realizes t.table d) (hn : n.Bounded)

include h

theorem Realizes.nonempty_members (hi : i < d.size) : (t.members i).Nonempty := by
  obtain ⟨w,hw⟩ := h.exists_tracks hi
  obtain ⟨q,hq⟩ := h.exists_walk hw
  exact ⟨q,hw.members_eq ▸ mem_eval_iff.mpr hq⟩

include hn

/-- The numbers stand for the sets that words reach, except for the empty one. -/
theorem Realizes.bijOn_members :
    Set.BijOn t.members (Set.Iio d.size) {S ∈ Set.range n.toεNFA.eval | S.Nonempty} := by
  refine ⟨?_,?_,?_⟩
  · intro i hi
    obtain ⟨w,hw⟩ := h.exists_tracks hi
    exact ⟨⟨w,hw.members_eq.symm⟩,h.nonempty_members hi⟩
  · -- words that reach the same set lead to the same number
    intro i hi j hj hij
    obtain ⟨v,hv⟩ := h.exists_tracks hi
    obtain ⟨w,hw⟩ := h.exists_tracks hj
    rw [hv.members_eq,hw.members_eq] at hij
    have hboth := (h.follow?_eq hn (hv.of_eval_eq hij)).symm.trans (h.follow?_eq hn hw)
    exact Option.some.inj hboth
  · rintro _ ⟨⟨w,rfl⟩,q,hq⟩
    obtain ⟨i,hi,htracks⟩ := h.exists_follow? hn (mem_eval_iff.mp hq)
    exact ⟨i,Dfa.follow?_lt d.start_lt hi,htracks.members_eq⟩

theorem Realizes.members_next? (hi : i < d.size) (x : UInt8) :
    (∀ j, d.next? i x = some j → t.members j = n.toεNFA.stepSet (t.members i) x) ∧
      (d.next? i x = none ↔ n.toεNFA.stepSet (t.members i) x = ∅) := by
  obtain ⟨w,hw⟩ := h.exists_tracks hi
  have hnext := h.tracks_next? hn hw x
  rw [hw.members_eq,← εNFA.eval_append_singleton]
  cases hj : d.next? i x with
  | none =>
    rw [hj] at hnext
    have hempty : n.toεNFA.eval (w ++ [x]) = ∅ := by
      rw [Set.eq_empty_iff_forall_notMem]
      intro q hq
      exact hnext q (mem_eval_iff.mp hq)
    refine ⟨?_,iff_of_true rfl hempty⟩
    intro j hfound
    cases hfound
  | some j =>
    rw [hj] at hnext
    have hnonempty : (n.toεNFA.eval (w ++ [x])).Nonempty := by
      obtain ⟨q,hq⟩ := h.exists_walk hnext
      exact ⟨q,mem_eval_iff.mpr hq⟩
    refine ⟨?_,iff_of_false (Option.some_ne_none j) hnonempty.ne_empty⟩
    intro k hk
    rw [← Option.some.inj hk]
    exact hnext.members_eq

end Numbers

/-- Whatever fragments are added, the visits come to an end, and the automaton that they leave has one
node for each nonempty set that some word reaches. Its start is the closure of the start, and its
transitions are the steps on the sets. -/
theorem determinize_subsets (added : List (String × Fragment)) (h : ∀ p ∈ added, p.2.Built) :
    let n := addAll added
    ∃ d last, n.determinize = .ok d ∧
      n.Visits n.firstFrontier last ∧ n.visit? last = none ∧ last.nodes = d.nodes ∧
      Set.BijOn last.members (Set.Iio d.size) {S ∈ Set.range n.toεNFA.eval | S.Nonempty} ∧
      d.start = 0 ∧ last.members 0 = n.toεNFA.εClosure {n.start} ∧
      ∀ i < d.size, ∀ x,
        (∀ j, d.next? i x = some j → last.members j = n.toεNFA.stepSet (last.members i) x) ∧
        (d.next? i x = none ↔ n.toεNFA.stepSet (last.members i) x = ∅) := by
  intro n
  have hmerges : n.Merges added := merges_addAll fun p hp => (h p hp).wellFormed
  have hbounded := hmerges.bounded
  obtain ⟨d,last,hd,hrealizes,hvisits,hend,hnodes⟩ := exists_determinize_visits hbounded
  have hfirst : n.Tracks last.table (some 0) [] :=
    ⟨n.initial,hrealizes.initial,reached_initial hbounded⟩
  exact ⟨d,last,hd,hvisits,hend,hnodes,hrealizes.bijOn_members hbounded,hrealizes.start_eq,
    hfirst.members_eq,fun i hi x => hrealizes.members_next? hbounded hi x⟩

/-- Of letters, one or more: a letter leads on from the start, and a digit leads nowhere. -/
theorem determinize_subsets_of_letters :
    let n := addAll [("word", .plus (.ofSet (.range 97 122)))]
    ∃ d, n.determinize = .ok d ∧ d.next? 0 97 ≠ none ∧ d.next? 0 48 = none := by
  intro n
  obtain ⟨d,last,hd,_,_,_,_,hstart,hfirst,hnext⟩ :=
    determinize_subsets [("word", .plus (.ofSet (.range 97 122)))]
      (List.forall_mem_singleton.mpr (.plus (.ofSet _)))
  have hiff : ∀ x, d.next? 0 x = none ↔ n.toεNFA.eval [x] = ∅ := by
    intro x
    rw [εNFA.eval_singleton]
    exact hfirst ▸ (hnext 0 (hstart ▸ d.start_lt) x).2
  refine ⟨d,hd,?_,(hiff 48).mpr ?_⟩
  · intro hnone
    have hwalk : n.edges.Walk 0 [97] 2 :=
      .epsilon (b := 3) (by decide) (.epsilon (b := 1) (by decide)
        (.single_byte (s := .range 97 122) (by decide) (by decide)))
    have hq := mem_eval_iff.mpr hwalk
    rw [(hiff 97).mp hnone] at hq
    exact hq
  · rw [Set.eq_empty_iff_forall_notMem]
    intro q hq
    obtain ⟨m,k,label,_,he,hx,_⟩ := EdgeList.Walk.singleton_iff.mp (mem_eval_iff.mp hq)
    have hlabels : ∀ m ∈ n.edges.byteMoves, m.2.1.test 48 = false := by decide
    rw [hlabels _ (EdgeList.mem_byteMoves.mpr he)] at hx
    cases hx

end LexAutomata.TaggedNfa
