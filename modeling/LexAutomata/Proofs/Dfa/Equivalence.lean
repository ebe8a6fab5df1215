import LexAutomata.Proofs.Dfa.Projection
import Mathlib.SetTheory.Cardinal.Finite

namespace LexAutomata.Dfa

variable {d m : Dfa} {f : Nat → Nat} {byName : Bool} {blocks next : Partition} {i j : Nat}

/-- On every word the runs from both nodes fail or neither does, and then they end at alike nodes. -/
def Equivalent (d : Dfa) (byName : Bool) (i j : Nat) : Prop :=
  ∀ w : List UInt8,
    let r := Runner.run d ⟨i, false⟩ w
    let s := Runner.run d ⟨j, false⟩ w
    r.failed = s.failed ∧ (r.failed = false → d.Alike byName r.node s.node)

theorem equivalence_alike (d : Dfa) (byName : Bool) : Equivalence (d.Alike byName) where
  refl _ := ⟨rfl,fun _ _ => Iff.rfl⟩
  symm h := ⟨h.1.symm,fun hbyName name => (h.2 hbyName name).symm⟩
  trans h k := ⟨h.1.trans k.1,fun hbyName name => (h.2 hbyName name).trans (k.2 hbyName name)⟩

section Options

variable {α β : Type} {R : α → α → Prop} {a b : Option α}

theorem rel_cases (h : Option.Rel R a b) :
    a = none ∧ b = none ∨ ∃ p q, a = some p ∧ b = some q ∧ R p q := by
  cases h with
  | none => exact .inl ⟨rfl,rfl⟩
  | some hpq => exact .inr ⟨_,_,rfl,rfl,hpq⟩

theorem map_eq_map_iff_rel {g : α → β} :
    a.map g = b.map g ↔ Option.Rel (fun p q => g p = g q) a b := by
  cases a <;> cases b <;> simp

end Options

section Runs

theorem equivalent_iff_follow? :
    d.Equivalent byName i j ↔
      ∀ w, Option.Rel (d.Alike byName) (d.follow? i w) (d.follow? j w) := by
  refine forall_congr' fun w => ?_
  simp only [Runner.run_eq_feed,Runner.failed_feed]
  cases hi : d.follow? i w with
  | none => cases d.follow? j w <;> simp
  | some p =>
    cases hj : d.follow? j w with
    | none => simp
    | some q => simp [Runner.feed_of_follow? hi,Runner.feed_of_follow? hj]

theorem Equivalent.alike (h : d.Equivalent byName i j) : d.Alike byName i j := by
  have hnil := equivalent_iff_follow?.mp h []
  exact Option.rel_some_some.mp hnil

/-- One byte leads from equivalent nodes to equivalent nodes, or from both nowhere. -/
theorem Equivalent.next? (h : d.Equivalent byName i j) (x : UInt8) :
    Option.Rel (d.Equivalent byName) (d.next? i x) (d.next? j x) := by
  have hcons : ∀ w, Option.Rel (d.Alike byName) ((d.next? i x).bind (d.follow? · w))
      ((d.next? j x).bind (d.follow? · w)) := fun w => equivalent_iff_follow?.mp h (x :: w)
  have hnil : Option.Rel (d.Alike byName) (d.next? i x) (d.next? j x) := by
    simpa [follow?] using hcons []
  rcases rel_cases hnil with ⟨hp,hq⟩ | ⟨p,q,hp,hq,_⟩
  · rw [hp,hq]
    exact .none
  · simp only [hp,hq,Option.bind_some] at hcons
    rw [hp,hq]
    exact .some (equivalent_iff_follow?.mpr hcons)

/-- Whatever relates only alike nodes, and their successors again, relates only equivalent nodes. -/
theorem equivalent_of_bisimulation {R : Nat → Nat → Prop}
    (halike : ∀ i j, R i j → d.Alike byName i j)
    (hnext : ∀ i j, R i j → ∀ x, Option.Rel R (d.next? i x) (d.next? j x)) (hij : R i j) :
    d.Equivalent byName i j := by
  rw [equivalent_iff_follow?]
  intro w
  induction w generalizing i j with
  | nil => exact .some (halike i j hij)
  | cons x w ih =>
    rw [follow?,follow?]
    rcases rel_cases (hnext i j hij x) with ⟨hp,hq⟩ | ⟨p,q,hp,hq,hpq⟩
    · rw [hp,hq]
      exact .none
    · rw [hp,hq]
      exact ih hpq

theorem equivalence_equivalent (d : Dfa) (byName : Bool) : Equivalence (d.Equivalent byName) where
  refl _ _ := ⟨rfl,fun _ => (equivalence_alike d byName).refl _⟩
  symm h w := by
    have hw := h w
    exact ⟨hw.1.symm,fun hrun => (equivalence_alike d byName).symm (hw.2 (hw.1.trans hrun))⟩
  trans h k w := by
    have hw := h w
    have kw := k w
    refine ⟨hw.1.trans kw.1,fun hrun => ?_⟩
    exact (equivalence_alike d byName).trans (hw.2 hrun) (kw.2 (hw.1.symm.trans hrun))

end Runs

section Refinement

def Coarse (d : Dfa) (byName : Bool) (blocks : Partition) : Prop :=
  ∀ i < d.size, ∀ j < d.size, d.Equivalent byName i j → NodeSet.Joined blocks.sets i j

theorem coarse_initialPartition (d : Dfa) (byName : Bool) :
    d.Coarse byName (d.initialPartition byName) := by
  intro i hi j hj hij
  exact ((initialPartition_spec d byName).2 i j).mpr ⟨hi,hj,hij.alike⟩

/-- Equivalent nodes enter the same block as long as no block boundary separates equivalent nodes. -/
theorem Coarse.enters?_eq (h : d.Coarse byName blocks) (hdivided : d.Divided blocks)
    (hij : d.Equivalent byName i j) (x : UInt8) : d.enters? blocks x i = d.enters? blocks x j := by
  rw [hdivided.enters?_eq,hdivided.enters?_eq]
  rcases rel_cases (hij.next? x) with ⟨hp,hq⟩ | ⟨p,q,hp,hq,hpq⟩
  · rw [hp,hq]
  · have hp' := next?_lt hp
    have hq' := next?_lt hq
    have hjoined := h p hp' q hq' hpq
    rw [hp,hq,Option.map_some,Option.map_some,(hdivided.blockOf_eq_iff hp' hq').mpr hjoined]

theorem Coarse.split (h : d.Coarse byName blocks) (hdivided : d.Divided blocks)
    (hsplits : d.Splits blocks next) : d.Coarse byName next := by
  obtain ⟨x,halong⟩ := hsplits.along
  intro i hi j hj hij
  exact halong i j (h i hi j hj hij) (h.enters?_eq hdivided hij x)

theorem Coarse.refine (h : d.Coarse byName blocks) (hdivided : d.Divided blocks)
    (hrefines : d.Refines blocks next) : d.Coarse byName next := by
  induction hrefines with
  | refl => exact h
  | tail hfirst hlast ih => exact ih.split (Refines.divided hfirst hdivided) hlast

/-- In a stable partition no input tells apart what is together. -/
theorem equivalent_of_joined (hdivided : d.Divided blocks) (hstable : d.Stable blocks)
    (halike : ∀ i j, NodeSet.Joined blocks.sets i j → d.Alike byName i j)
    (hij : NodeSet.Joined blocks.sets i j) : d.Equivalent byName i j := by
  refine equivalent_of_bisimulation halike (fun i j hij x => ?_) hij
  obtain ⟨block,hblock,hi,hj⟩ := hij
  have henters := hstable block hblock x i j hi hj
  rw [hdivided.enters?_eq,hdivided.enters?_eq,map_eq_map_iff_rel] at henters
  rcases rel_cases henters with ⟨hp,hq⟩ | ⟨p,q,hp,hq,hpq⟩
  · rw [hp,hq]
    exact .none
  · rw [hp,hq]
    exact .some ((hdivided.blockOf_eq_iff (next?_lt hp) (next?_lt hq)).mp hpq)

/-- The blocks that the refinement ends with are the classes. -/
theorem joined_iff_equivalent (hrefines : d.Refines (d.initialPartition byName) blocks)
    (hstable : d.Stable blocks) (hi : i < d.size) (hj : j < d.size) :
    NodeSet.Joined blocks.sets i j ↔ d.Equivalent byName i j := by
  have hinitial := (initialPartition_spec d byName).1
  have hcoarse := (coarse_initialPartition d byName).refine hinitial hrefines
  constructor
  · intro hij
    have halike := fun i j => alike_of_refines (i := i) (j := j) hrefines
    exact equivalent_of_joined (hrefines.divided hinitial) hstable halike hij
  · exact hcoarse i hi j hj

end Refinement

section Classes

/-- Minimization is a projection that brings together exactly the equivalent nodes. -/
theorem exists_minimize_classes (hd : d.Deterministic) (byName : Bool) :
    ∃ m f, d.minimize byName = .ok m ∧ d.Projects m.dfa f ∧
      ∀ i < d.size, ∀ j < d.size, f i = f j ↔ d.Equivalent byName i j := by
  obtain ⟨m,blocks,f,hm,_,hrefines,hstable,hprojects,hjoined⟩ := exists_minimize hd byName
  refine ⟨m,f,hm,hprojects,fun i hi j hj => ?_⟩
  rw [hjoined i hi j hj]
  exact joined_iff_equivalent hrefines hstable hi hj

theorem Projects.alike_iff (h : d.Projects m f)
    (hf : ∀ i < d.size, ∀ j < d.size, f i = f j → d.Alike byName i j) (hi : i < d.size)
    (hj : j < d.size) : m.Alike byName (f i) (f j) ↔ d.Alike byName i j := by
  unfold Alike
  rw [h.isFinal_eq i hi,h.isFinal_eq j hj]
  refine and_congr_right fun _ => forall_congr' fun hbyName => forall_congr' fun name => ?_
  have hsame : ∀ i < d.size, ∀ j < d.size, f i = f j → ∀ name, name ∈ d.names i ↔ name ∈ d.names j :=
    fun i hi j hj hij => (hf i hi j hj hij).2 hbyName
  rw [h.mem_names_iff hsame hi,h.mem_names_iff hsame hj]

theorem Projects.equivalent_iff (h : d.Projects m f)
    (hf : ∀ i < d.size, ∀ j < d.size, f i = f j → d.Alike byName i j) (hi : i < d.size)
    (hj : j < d.size) : m.Equivalent byName (f i) (f j) ↔ d.Equivalent byName i j := by
  rw [equivalent_iff_follow?,equivalent_iff_follow?]
  refine forall_congr' fun w => ?_
  rw [h.follow?_eq hi,h.follow?_eq hj]
  cases hp : d.follow? i w with
  | none => cases d.follow? j w <;> simp
  | some p =>
    cases hq : d.follow? j w with
    | none => simp
    | some q => simp [h.alike_iff hf (follow?_lt hi hp) (follow?_lt hj hq)]

/-- No two nodes are equivalent. -/
def Reduced (d : Dfa) (byName : Bool) : Prop :=
  ∀ i < d.size, ∀ j < d.size, d.Equivalent byName i j → i = j

def classes (d : Dfa) (byName : Bool) : Setoid (Fin d.size) :=
  ⟨fun i j => d.Equivalent byName i j,(equivalence_equivalent d byName).comap _⟩

section Merging

variable (h : d.Projects m f) (hf : ∀ i < d.size, ∀ j < d.size, f i = f j ↔ d.Equivalent byName i j)

include h hf

theorem Projects.reduced : m.Reduced byName := by
  intro k hk l hl hkl
  obtain ⟨i,hi,rfl⟩ := h.onto k hk
  obtain ⟨j,hj,rfl⟩ := h.onto l hl
  have halike : ∀ i < d.size, ∀ j < d.size, f i = f j → d.Alike byName i j :=
    fun i hi j hj hij => ((hf i hi j hj).mp hij).alike
  exact (hf i hi j hj).mpr ((h.equivalent_iff halike hi hj).mp hkl)

/-- The projection has a node for each class. -/
theorem Projects.size_eq : m.size = Nat.card (Quotient (d.classes byName)) := by
  let g : Fin d.size → Fin m.size := fun i => ⟨f i,h.lt i i.isLt⟩
  have hsurjective : Function.Surjective g := by
    intro k
    obtain ⟨i,hi,hik⟩ := h.onto k k.isLt
    exact ⟨⟨i,hi⟩,Fin.ext hik⟩
  have hclasses : d.classes byName = Setoid.ker g := by
    ext i j
    rw [Setoid.ker_def,Fin.ext_iff]
    exact (hf i i.isLt j j.isLt).symm
  rw [hclasses,Nat.card_congr (Setoid.quotientKerEquivOfSurjective g hsurjective),Nat.card_fin]

end Merging

/-- Minimization leaves one node for each class, and no two of its nodes are equivalent. -/
theorem minimize_classes (hd : d.Deterministic) (byName : Bool) :
    ∃ m, d.minimize byName = .ok m ∧ m.dfa.size = Nat.card (Quotient (d.classes byName)) ∧
      m.dfa.Reduced byName := by
  obtain ⟨m,f,hm,hprojects,hf⟩ := exists_minimize_classes hd byName
  exact ⟨m,hm,hprojects.size_eq hf,hprojects.reduced hf⟩

/-- A first digit under two names, and further digits under one of them. -/
def digits : Dfa where
  nodes := [⟨[⟨.range 48 57, 1⟩], []⟩, ⟨[⟨.range 48 57, 2⟩], ["digit", "number"]⟩,
    ⟨[⟨.range 48 57, 3⟩], ["number"]⟩, ⟨[⟨.range 48 57, 3⟩], ["number"]⟩]
  start := 0
  start_lt := by decide
  target_lt := by decide

theorem deterministic_digits : digits.Deterministic := by
  unfold Deterministic DfaNode.Deterministic
  decide

theorem equivalent_digits : digits.Equivalent false 1 2 := by
  let R : Nat → Nat → Prop := fun i j => (i = 1 ∨ i = 2 ∨ i = 3) ∧ (j = 2 ∨ j = 3)
  have halike : ∀ i j, R i j → digits.Alike false i j := by
    rintro i j ⟨rfl | rfl | rfl,rfl | rfl⟩ <;> exact ⟨by decide,fun h => by cases h⟩
  have hnext : ∀ i j, R i j → ∀ x, Option.Rel R (digits.next? i x) (digits.next? j x) := by
    rintro i j ⟨rfl | rfl | rfl,rfl | rfl⟩ x <;>
      cases hx : (ByteSet.range 48 57).test x <;>
      simp [R,digits,next?,node?,DfaNode.next?,hx]
  exact equivalent_of_bisimulation halike hnext ⟨.inl rfl,.inl rfl⟩

/-- With names merged, nodes of `digits` are brought together. -/
theorem minimize_classes_of_digits :
    digits.Deterministic ∧ ∃ m, digits.minimize false = .ok m ∧ m.dfa.size < digits.size := by
  obtain ⟨m,hm,hsize,_⟩ := minimize_classes deterministic_digits false
  have hmerged : ¬ Function.Injective (Quotient.mk (digits.classes false)) := by
    intro hinjective
    have hsame := hinjective (Quotient.sound (a := ⟨1,by decide⟩) (b := ⟨2,by decide⟩) equivalent_digits)
    exact absurd hsame (by decide)
  have hfewer : Nat.card (Quotient (digits.classes false)) < Nat.card (Fin digits.size) := by
    apply Nat.lt_of_not_le
    intro hle
    exact hmerged (Quotient.mk_surjective.bijective_of_nat_card_le hle).injective
  rw [← hsize,Nat.card_fin] at hfewer
  exact ⟨deterministic_digits,m,hm,hfewer⟩

end Classes

section Names

theorem Projects.run_start (h : d.Projects m f) (w : List UInt8) :
    (Runner.run d (Runner.start d) w).node < d.size ∧
      Runner.run m (Runner.start m) w = (Runner.run d (Runner.start d) w).map f := by
  have hstart : Runner.start m = (Runner.start d).map f := by
    rw [Runner.start,Runner.start,h.start_eq]
    rfl
  rw [Runner.run_eq_feed,Runner.run_eq_feed,hstart]
  exact h.feed_map d.start_lt w

/-- With names merged, minimization changes neither failures nor acceptance, and after any word it shows
the names of all nodes that no input tells apart from the one reached. -/
theorem minimize_merged_names (hd : d.Deterministic) :
    ∃ m, d.minimize false = .ok m ∧ ∀ w : List UInt8,
      let r := Runner.run d (Runner.start d) w
      let s := Runner.run m.dfa (Runner.start m.dfa) w
      s.failed = r.failed ∧ (Runner.accepts m.dfa w []).1 = (Runner.accepts d w []).1 ∧
        ∀ name, name ∈ m.dfa.names s.node ↔
          ∃ q < d.size, d.Equivalent false q r.node ∧ name ∈ d.names q := by
  obtain ⟨m,f,hm,hprojects,hf⟩ := exists_minimize_classes hd false
  refine ⟨m,hm,fun w => ?_⟩
  obtain ⟨hlt,hrun⟩ := hprojects.run_start w
  dsimp only [Runner.accepts,Runner.accepted]
  rw [hrun]
  refine ⟨rfl,?_,fun name => ?_⟩
  · have hfinal := hprojects.isFinal_map hlt
    rw [hfinal]
    rfl
  · have hclass : ∀ q < d.size, f q = f (Runner.run d (Runner.start d) w).node ↔
        d.Equivalent false q (Runner.run d (Runner.start d) w).node :=
      fun q hq => hf q hq _ hlt
    refine (hprojects.mem_names _ hlt name).trans (exists_congr fun q => and_congr_right fun hq => ?_)
    rw [hclass q hq]

/-- The second digit is a number only, and shown as a digit too once the final nodes are merged. -/
theorem minimize_merged_names_of_digits :
    digits.Deterministic ∧ (Runner.accepts digits [49, 48] ["digit"]).1 = false ∧
      ∃ m, digits.minimize false = .ok m ∧ (Runner.accepts m.dfa [49, 48] []).1 = true ∧
        "digit" ∈ m.dfa.names (Runner.run m.dfa (Runner.start m.dfa) [49, 48]).node := by
  obtain ⟨m,hm,hruns⟩ := minimize_merged_names deterministic_digits
  obtain ⟨_,haccepts,hnames⟩ := hruns [49, 48]
  have hnode : (Runner.run digits (Runner.start digits) [49, 48]).node = 2 := by decide
  rw [hnode] at hnames
  refine ⟨deterministic_digits,by decide,m,hm,haccepts.trans (by decide),?_⟩
  exact (hnames "digit").mpr ⟨1,by decide,equivalent_digits,by decide⟩

end Names

end LexAutomata.Dfa
