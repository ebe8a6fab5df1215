import LexAutomata.Dfa.Runner

namespace LexAutomata.Dfa

def follow? (d : Dfa) (id : Nat) : List UInt8 → Option Nat
  | [] => some id
  | b :: w => (d.next? id b).bind fun target => follow? d target w

theorem follow?_append (d : Dfa) (id : Nat) (u v : List UInt8) :
    d.follow? id (u ++ v) = (d.follow? id u).bind fun target => d.follow? target v := by
  induction u generalizing id with
  | nil => rfl
  | cons b u ih =>
    rw [List.cons_append,follow?,follow?,Option.bind_assoc]
    congr 1
    funext target
    exact ih target

theorem follow?_concat (d : Dfa) (id : Nat) (w : List UInt8) (b : UInt8) :
    d.follow? id (w ++ [b]) = (d.follow? id w).bind fun target => d.next? target b := by
  rw [follow?_append]
  congr 1
  funext target
  rw [follow?]
  cases d.next? target b <;> rfl

theorem follow?_lt {d : Dfa} {id target : Nat} {w : List UInt8} (hid : id < d.size)
    (h : d.follow? id w = some target) : target < d.size := by
  induction w generalizing id with
  | nil =>
    rw [← Option.some.inj h]
    exact hid
  | cons b w ih =>
    obtain ⟨middle,hnext,hrest⟩ := Option.bind_eq_some_iff.mp h
    exact ih (next?_lt hnext) hrest

theorem isFinal_iff {d : Dfa} {id : Nat} : d.isFinal id = true ↔ ∃ name, name ∈ d.names id := by
  rw [isFinal,Bool.not_eq_true',List.isEmpty_eq_false_iff_exists_mem]

theorem names_of_node? {d : Dfa} {id : Nat} {n : DfaNode} (h : d.node? id = some n) :
    d.names id = n.names := by
  rw [names,h]

theorem next?_of_node? {d : Dfa} {id : Nat} {n : DfaNode} (h : d.node? id = some n) (b : UInt8) :
    d.next? id b = n.next? b := by
  rw [next?,h]
  rfl

theorem unknownTarget?_eq_none {bound : Nat} {nodes : List DfaNode} (id : Nat)
    (h : ∀ n ∈ nodes, ∀ t ∈ n.transitions, t.target < bound) :
    unknownTarget? bound id nodes = none := by
  induction nodes generalizing id with
  | nil => rfl
  | cons n rest ih =>
    have hnone : n.transitions.find? (fun t => decide (bound ≤ t.target)) = none := by
      apply List.find?_eq_none.mpr
      intro t ht
      have := h n List.mem_cons_self t ht
      simpa using this
    rw [unknownTarget?,hnone]
    exact ih (id + 1) fun m hm => h m (List.mem_cons_of_mem _ hm)

theorem ofNodes_eq_ok {nodes : List DfaNode} {start : Nat} (hs : start < nodes.length)
    (ht : ∀ n ∈ nodes, ∀ t ∈ n.transitions, t.target < nodes.length) :
    ofNodes nodes start = .ok ⟨nodes,start,hs,ht⟩ := by
  rw [ofNodes,dif_pos hs]
  split
  · rename_i hsome
    rw [unknownTarget?_eq_none 0 ht] at hsome
    cases hsome
  · rfl

namespace Runner

def feed (d : Dfa) (r : Runner) (w : List UInt8) : Runner :=
  w.foldl (fun r b => (next d r b).2) r

theorem feed_of_failed {d : Dfa} {r : Runner} (h : r.failed = true) (w : List UInt8) :
    feed d r w = r := by
  induction w with
  | nil => rfl
  | cons b w ih =>
    rw [feed,List.foldl_cons,next_of_failed h]
    exact ih

/-- Stopping at a failure makes no difference. -/
theorem run_eq_feed (d : Dfa) (r : Runner) (w : List UInt8) : run d r w = feed d r w := by
  induction w generalizing r with
  | nil => rfl
  | cons b w ih =>
    rw [run,feed,List.foldl_cons]
    split
    · rename_i h
      exact (feed_of_failed h w).symm
    · exact ih _

theorem next_of_some {d : Dfa} {id target : Nat} {b : UInt8} (h : d.next? id b = some target) :
    next d ⟨id, false⟩ b = (d.isFinal target, ⟨target, false⟩) := by
  simp [next,h]

theorem next_of_none {d : Dfa} {id : Nat} {b : UInt8} (h : d.next? id b = none) :
    next d ⟨id, false⟩ b = (false, ⟨id, true⟩) := by
  simp [next,h]

theorem feed_of_follow? {d : Dfa} {id target : Nat} {w : List UInt8}
    (h : d.follow? id w = some target) : feed d ⟨id, false⟩ w = ⟨target, false⟩ := by
  induction w generalizing id with
  | nil => rw [← Option.some.inj h,feed,List.foldl_nil]
  | cons b w ih =>
    obtain ⟨middle,hnext,hrest⟩ := Option.bind_eq_some_iff.mp h
    rw [feed,List.foldl_cons,next_of_some hnext]
    exact ih hrest

theorem failed_feed {d : Dfa} {id : Nat} {w : List UInt8} :
    (feed d ⟨id, false⟩ w).failed = (d.follow? id w).isNone := by
  induction w generalizing id with
  | nil => rfl
  | cons b w ih =>
    rw [feed,List.foldl_cons,follow?]
    cases hnext : d.next? id b with
    | none =>
      rw [next_of_none hnext]
      exact congrArg failed (feed_of_failed rfl w)
    | some target =>
      rw [next_of_some hnext]
      exact ih

theorem meets_iff {names required : List String} :
    meets names required = true ↔ required = [] ∨ ∃ n ∈ required, n ∈ names := by
  simp [meets]

/-- A word is accepted by the names of the node that it leads to. -/
theorem accepts_iff {d : Dfa} {w : List UInt8} {required : List String} :
    (accepts d w required).1 = true ↔
      ∃ target, d.follow? d.start w = some target ∧
        ∃ name ∈ d.names target, required = [] ∨ name ∈ required := by
  have hverdict : (accepts d w required).1 = accepted d (feed d ⟨d.start, false⟩ w) required := by
    rw [← run_eq_feed]
    rfl
  rw [hverdict,accepted,isFinal]
  cases hfollow : d.follow? d.start w with
  | none =>
    have hfailed : (feed d ⟨d.start, false⟩ w).failed = true := by
      rw [failed_feed,hfollow]
      rfl
    simp [hfailed]
  | some target =>
    rw [feed_of_follow? hfollow]
    simp only [Bool.not_false,Bool.true_and,Bool.and_eq_true,isFinal_iff,meets_iff,
      Option.some.injEq,exists_eq_left']
    grind

end Runner

end LexAutomata.Dfa
