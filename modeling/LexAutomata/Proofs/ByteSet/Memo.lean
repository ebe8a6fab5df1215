import LexAutomata.ByteSet.Ranges
import LexAutomata.ByteSet.Tracked
import Mathlib.Logic.Function.Basic

namespace LexAutomata.ByteSet.Tracked

/-- Where a new set comes from; other sets are named by their numbers. -/
inductive Source where
  | empty
  | full
  | ofByte (b : UInt8)
  | ofRange (lo hi : UInt8)
  | ofList (bs : List UInt8)
  | copy (y : Nat)
  | union (y z : Nat)
  | inter (y z : Nat)
  | diff (y z : Nat)

inductive Operation where
  | make (x : Nat) (source : Source)
  /-- The complement of `y` becomes `x`; `y` is asked whether it is empty. -/
  | compl (x y : Nat)
  | insert (x : Nat) (b : UInt8)
  | erase (x : Nat) (b : UInt8)
  | insertRange (x : Nat) (lo hi : UInt8)
  | isEmpty (x : Nat)
  | test (x : Nat) (b : UInt8)
  | ranges (x : Nat)
  | equal (x y : Nat)

inductive Answer where
  | truth (b : Bool)
  | ranges (rs : List (UInt8 × UInt8))
  deriving DecidableEq

def Source.value (sets : Nat → Tracked) : Source → Tracked
  | empty => .empty
  | full => .full
  | ofByte b => .ofByte b
  | ofRange lo hi => .ofRange lo hi
  | ofList bs => .ofList bs
  | copy y => sets y
  | union y z => (sets y).union (sets z)
  | inter y z => (sets y).inter (sets z)
  | diff y z => (sets y).diff (sets z)

def perform (sets : Nat → Tracked) : Operation → Option Answer × (Nat → Tracked)
  | .make x source => (none, Function.update sets x (source.value sets))
  | .compl x y =>
    (none, Function.update (Function.update sets y (sets y).compl.2) x (sets y).compl.1)
  | .insert x b => (none, Function.update sets x ((sets x).insert b))
  | .erase x b => (none, Function.update sets x ((sets x).erase b))
  | .insertRange x lo hi =>
    (some (.truth ((sets x).insertRange lo hi).1),
      Function.update sets x ((sets x).insertRange lo hi).2)
  | .isEmpty x => (some (.truth (sets x).isEmpty.1), Function.update sets x (sets x).isEmpty.2)
  | .test x b => (some (.truth ((sets x).test b)), sets)
  | .ranges x => (some (.ranges (sets x).set.ranges), sets)
  | .equal x y => (some (.truth ((sets x).set == (sets y).set)), sets)

/-- The sets after the operations; every number names an empty set before them. -/
def after (ops : List Operation) : Nat → Tracked :=
  ops.foldl (fun sets op => (perform sets op).2) fun _ => .empty

def answers (sets : Nat → Tracked) : List Operation → List Answer
  | [] => []
  | op :: ops => (perform sets op).1.toList ++ answers (perform sets op).2 ops

def Operation.asks : Operation → Bool
  | isEmpty _ => true
  | _ => false

variable {s t : Tracked} {sets others : Nat → Tracked}

section Sets

theorem erase_set (s : Tracked) (b : UInt8) : (s.erase b).set = s.set.erase b := by
  unfold erase
  split
  · rfl
  · rename_i hb
    apply ByteSet.ext
    intro c
    rw [test_erase]
    by_cases hc : c = b
    · rw [hc]
      simpa using hb
    · simp [hc]

theorem insertRange_fst (s : Tracked) (lo hi : UInt8) :
    (s.insertRange lo hi).1 = decide (lo ≤ hi) := by
  unfold insertRange
  split <;> simp [*]

theorem insertRange_set (s : Tracked) (lo hi : UInt8) :
    (s.insertRange lo hi).2.set = s.set.union (range lo hi) := by
  unfold insertRange
  split
  · rfl
  · rename_i hlo
    apply ByteSet.ext
    intro c
    have hnone : ¬ (lo ≤ c ∧ c ≤ hi) := fun h => hlo (UInt8.le_trans h.1 h.2)
    rw [test_union,test_range,← Bool.decide_and,decide_eq_false hnone,Bool.or_false]

end Sets

namespace Sound

theorem of_unknown (h : s.memo = .unknown) : s.Sound := by
  constructor <;> intro hmemo <;> rw [h] at hmemo <;> cases hmemo

theorem empty : empty.Sound := by
  constructor
  · intro _
    rfl
  · intro hmemo
    cases hmemo

/-- A member shows that the memo of a growing operation is right. -/
theorem of_test (hmemo : s.memo = .nonEmpty) {b : UInt8} (hb : s.set.test b = true) : s.Sound := by
  constructor
  · intro hempty
    rw [hmemo] at hempty
    cases hempty
  · intro _
    exact isEmpty_eq_false_iff.mpr ⟨b,hb⟩

theorem insert (s : Tracked) (b : UInt8) : (s.insert b).Sound := by
  apply of_test rfl (b := b)
  simp [Tracked.insert]

theorem erase (h : s.Sound) (b : UInt8) : (s.erase b).Sound := by
  unfold Tracked.erase
  split
  · exact of_unknown rfl
  · exact h

theorem insertRange (h : s.Sound) (lo hi : UInt8) : (s.insertRange lo hi).2.Sound := by
  unfold Tracked.insertRange
  split
  · rename_i hle
    apply of_test rfl (b := lo)
    simp [hle]
  · exact h

theorem ofList (bs : List UInt8) : (Tracked.ofList bs).Sound := by
  apply List.foldlRecOn (motive := Sound)
  · exact empty
  · intro s _ b _
    exact insert s b

theorem isEmpty_fst (h : s.Sound) : s.isEmpty.1 = s.set.isEmpty := by
  unfold Tracked.isEmpty
  split
  · rename_i hmemo
    exact (h.1 hmemo).symm
  · rename_i hmemo
    exact (h.2 hmemo).symm
  · split
    · rename_i hempty
      exact hempty.symm
    · rename_i hempty
      exact (Bool.eq_false_iff.mpr hempty).symm

theorem isEmpty_snd (h : s.Sound) : s.isEmpty.2.Sound := by
  unfold Tracked.isEmpty
  split
  · exact h
  · exact h
  · split
    · rename_i hempty
      exact ⟨fun _ => hempty,fun hmemo => by cases hmemo⟩
    · rename_i hempty
      exact ⟨fun hmemo => (by cases hmemo),fun _ => Bool.eq_false_iff.mpr hempty⟩

theorem compl_fst (h : s.Sound) : s.compl.1.Sound := by
  by_cases hempty : s.isEmpty.1 = true
  · have hmemo : s.compl.1.memo = .nonEmpty := if_pos hempty
    have hnone := isEmpty_iff.mp (h.isEmpty_fst.symm.trans hempty) 0
    apply of_test hmemo (b := 0)
    rw [(compl_set s).1,test_compl,hnone]
    rfl
  · exact of_unknown (if_neg hempty)

theorem value (h : ∀ x, (sets x).Sound) (source : Source) : (source.value sets).Sound := by
  cases source with
  | empty => exact empty
  | full => exact empty.compl_fst
  | ofByte b => exact insert _ b
  | ofRange lo hi => exact empty.insertRange lo hi
  | ofList bs => exact ofList bs
  | copy y => exact h y
  | union y z => exact of_unknown rfl
  | inter y z => exact of_unknown rfl
  | diff y z => exact of_unknown rfl

theorem update (h : ∀ x, (sets x).Sound) (x : Nat) (hs : s.Sound) :
    ∀ y, (Function.update sets x s y).Sound :=
  (Function.forall_update_iff sets fun _ t => t.Sound).mpr ⟨hs,fun y _ => h y⟩

theorem perform (h : ∀ x, (sets x).Sound) (op : Operation) : ∀ x, ((perform sets op).2 x).Sound := by
  cases op with
  | make x source => exact update h x (value h source)
  | compl x y => exact update (update h y (h y).isEmpty_snd) x (h y).compl_fst
  | insert x b => exact update h x (insert _ b)
  | erase x b => exact update h x ((h x).erase b)
  | insertRange x lo hi => exact update h x ((h x).insertRange lo hi)
  | isEmpty x => exact update h x (h x).isEmpty_snd
  | test x b => exact h
  | ranges x => exact h
  | equal x y => exact h

theorem after (ops : List Operation) : ∀ x, (after ops x).Sound := by
  apply List.foldlRecOn (motive := fun sets : Nat → Tracked => ∀ x, (sets x).Sound)
  · intro _
    exact empty
  · intro sets h op _
    exact perform h op

end Sound

/-- The same sets, whatever their memos. -/
def Alike (sets others : Nat → Tracked) : Prop := ∀ x, (sets x).set = (others x).set

namespace Alike

theorem trans {more : Nat → Tracked} (h : Alike sets others) (k : Alike others more) :
    Alike sets more := fun x => (h x).trans (k x)

theorem symm (h : Alike sets others) : Alike others sets := fun x => (h x).symm

theorem update (h : Alike sets others) (x : Nat) (hst : s.set = t.set) :
    Alike (Function.update sets x s) (Function.update others x t) := by
  intro y
  by_cases hy : y = x
  · rw [hy,Function.update_self,Function.update_self,hst]
  · rw [Function.update_of_ne hy,Function.update_of_ne hy,h y]

theorem value (h : Alike sets others) (source : Source) :
    (source.value sets).set = (source.value others).set := by
  cases source with
  | copy y => exact h y
  | union y z => exact congrArg₂ ByteSet.union (h y) (h z)
  | inter y z => exact congrArg₂ ByteSet.inter (h y) (h z)
  | diff y z => exact congrArg₂ ByteSet.diff (h y) (h z)
  | _ => rfl

theorem perform (h : Alike sets others) (op : Operation) :
    Alike (perform sets op).2 (perform others op).2 := by
  cases op with
  | make x source => exact h.update x (h.value source)
  | compl x y =>
    have hasked : (sets y).compl.2.set = (others y).compl.2.set := by
      rw [(compl_set _).2,(compl_set _).2,h y]
    exact (h.update y hasked).update x (congrArg ByteSet.compl (h y))
  | insert x b => exact h.update x (congrArg (ByteSet.insert · b) (h x))
  | erase x b => exact h.update x (by rw [erase_set,erase_set,h x])
  | insertRange x lo hi => exact h.update x (by rw [insertRange_set,insertRange_set,h x])
  | isEmpty x => exact h.update x (by rw [isEmpty_set,isEmpty_set,h x])
  | test x b => exact h
  | ranges x => exact h
  | equal x y => exact h

/-- And where no memo is wrong, they decide the answer. -/
theorem perform_fst (h : Alike sets others) (hsets : ∀ x, (sets x).Sound)
    (hothers : ∀ x, (others x).Sound) (op : Operation) :
    (Tracked.perform sets op).1 = (Tracked.perform others op).1 := by
  cases op with
  | insertRange x lo hi => simp only [Tracked.perform,insertRange_fst]
  | isEmpty x => simp only [Tracked.perform,(hsets x).isEmpty_fst,(hothers x).isEmpty_fst,h x]
  | test x b => simp only [Tracked.perform,test,h x]
  | ranges x => simp only [Tracked.perform,h x]
  | equal x y => simp only [Tracked.perform,h x,h y]
  | _ => rfl

theorem answers (h : Alike sets others) (hsets : ∀ x, (sets x).Sound)
    (hothers : ∀ x, (others x).Sound) (ops : List Operation) :
    answers sets ops = answers others ops := by
  induction ops generalizing sets others with
  | nil => rfl
  | cons op ops ih =>
    rw [Tracked.answers,Tracked.answers,h.perform_fst hsets hothers op,
      ih (h.perform op) (Sound.perform hsets op) (Sound.perform hothers op)]

end Alike

theorem alike_perform_of_asks {op : Operation} (hop : op.asks = true) (sets : Nat → Tracked) :
    Alike (perform sets op).2 sets := by
  cases op with
  | isEmpty x =>
    have hsame : Function.update sets x (sets x) = sets := Function.update_eq_self x sets
    have h : Alike sets sets := fun _ => rfl
    have hasked := h.update x (isEmpty_set (sets x))
    rwa [hsame] at hasked
  | _ => cases hop

theorem alike_filter (h : Alike sets others) (ops : List Operation) :
    Alike (ops.foldl (fun sets op => (perform sets op).2) sets)
      ((ops.filter fun op => !op.asks).foldl (fun sets op => (perform sets op).2) others) := by
  induction ops generalizing sets others with
  | nil => exact h
  | cons op ops ih =>
    rw [List.foldl_cons]
    cases hop : op.asks with
    | true =>
      rw [List.filter_cons_of_neg (by simp [hop])]
      exact ih ((alike_perform_of_asks hop sets).trans h)
    | false =>
      rw [List.filter_cons_of_pos (by simp [hop]),List.foldl_cons]
      exact ih (h.perform op)

theorem alike_after (ops : List Operation) : Alike (after ops) (after (ops.filter fun op => !op.asks)) :=
  alike_filter (fun _ => rfl) ops

/-- After any operations a memo says that its set is empty only if it has no byte, and that it is not only
if it has one, and the set is said to be empty exactly if it has none. Operations that differ in nothing
but questions about emptiness, asked anywhere among them, are followed by the same answers. -/
theorem after_operations (ops : List Operation) :
    (∀ x, let s := after ops x
      (s.memo = .empty → ∀ b, s.test b = false) ∧ (s.memo = .nonEmpty → ∃ b, s.test b = true) ∧
      (s.isEmpty.1 = true ↔ ∀ b, s.test b = false)) ∧
    ∀ others : List Operation,
      others.filter (fun op => !op.asks) = ops.filter (fun op => !op.asks) →
        ∀ later, answers (after ops) later = answers (after others) later := by
  constructor
  · intro x s
    have hs : s.Sound := Sound.after ops x
    refine ⟨fun hmemo => isEmpty_iff.mp (hs.1 hmemo),
      fun hmemo => isEmpty_eq_false_iff.mp (hs.2 hmemo),?_⟩
    rw [hs.isEmpty_fst]
    exact isEmpty_iff
  · intro others hothers later
    have hfirst := alike_after ops
    rw [← hothers] at hfirst
    exact (hfirst.trans (alike_after others).symm).answers (Sound.after ops) (Sound.after others) later

/-- A set that has lost its only byte does not know that it is empty until it is asked. Its complement
and all answers are the same without the question. -/
theorem after_operations_of_lost_byte :
    let loses := [Operation.make 0 (.ofByte 113), .erase 0 113]
    let asked := loses ++ [.isEmpty 0]
    (after loses 0).memo = .unknown ∧ (after asked 0).memo = .empty ∧
      (∀ b, (after asked 0).test b = false) ∧
      answers (after loses) [.compl 1 0, .isEmpty 0, .isEmpty 1, .equal 0 1] =
        answers (after asked) [.compl 1 0, .isEmpty 0, .isEmpty 1, .equal 0 1] ∧
      answers (after asked) [.compl 1 0, .isEmpty 0, .isEmpty 1, .equal 0 1] =
        [.truth true, .truth false, .truth false] := by
  intro loses asked
  have hmemo : (after asked 0).memo = .empty := by decide +kernel
  obtain ⟨_,hsame⟩ := after_operations loses
  obtain ⟨hsets,_⟩ := after_operations asked
  exact ⟨by decide +kernel,hmemo,(hsets 0).1 hmemo,hsame asked rfl _,by decide +kernel⟩

end LexAutomata.ByteSet.Tracked
