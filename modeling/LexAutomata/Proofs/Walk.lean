import LexAutomata.Edge

namespace LexAutomata

/-- The words read along one edge. -/
def Label.Reads : Label → List UInt8 → Prop
  | .epsilon, w => w = []
  | .bytes s, w => ∃ x, s.test x = true ∧ w = [x]

namespace EdgeList

/-- A way from one node to another, and the word read along it. -/
inductive Walk (es : EdgeList) : Nat → List UInt8 → Nat → Prop where
  | nil (a : Nat) : Walk es a [] a
  | epsilon {a b c : Nat} {w : List UInt8} :
      ⟨a, b, .epsilon⟩ ∈ es → Walk es b w c → Walk es a w c
  | byte {a b c : Nat} {s : ByteSet} {x : UInt8} {w : List UInt8} :
      ⟨a, b, .bytes s⟩ ∈ es → s.test x = true → Walk es b w c → Walk es a (x :: w) c

theorem mem_copyFrom {es fs : EdgeList} {offset : Nat} {e : Edge} :
    e ∈ es.copyFrom fs offset ↔ e ∈ es ∨ ∃ f ∈ fs, f.rebase offset = e := by
  simp [copyFrom]

/-- An empty move is left out only if it is there already. -/
theorem mem_addEpsilon {es : EdgeList} {a b : Nat} {e : Edge} :
    e ∈ es.addEpsilon a b ↔ e ∈ es ∨ e = ⟨a, b, .epsilon⟩ := by
  unfold addEpsilon insertUnique
  split
  · rename_i h
    have hm : ⟨a, b, .epsilon⟩ ∈ es := by
      obtain ⟨⟨x,y,l⟩,he,hc⟩ := List.any_eq_true.mp h
      simp only [Edge.collides,Bool.and_eq_true,beq_iff_eq] at hc
      obtain ⟨⟨rfl,rfl⟩,hl⟩ := hc
      cases l with
      | epsilon => exact he
      | bytes s => simp [Label.collides] at hl
    constructor
    · exact .inl
    · rintro (he | rfl)
      · exact he
      · exact hm
  · simp [push]

/-- Whatever is said of the words read up to the source of an edge holds, with the word read on the
edge, at its target. -/
def Carries (es : EdgeList) (P : Nat → List UInt8 → Prop) : Prop :=
  ∀ e ∈ es, ∀ u, e.label.Reads u → ∀ v, P e.source v → P e.target (v ++ u)

namespace Walk

variable {es fs : EdgeList} {a b c : Nat} {u v w : List UInt8} {x : UInt8}

theorem append (h : Walk es a u b) (k : Walk es b v c) : Walk es a (u ++ v) c := by
  induction h with
  | nil a => exact k
  | epsilon he _ ih => exact .epsilon he (ih k)
  | byte he hx _ ih => exact .byte he hx (ih k)

theorem mono (hsub : ∀ e ∈ es, e ∈ fs) (h : Walk es a w b) : Walk fs a w b := by
  induction h with
  | nil a => exact .nil a
  | epsilon he _ ih => exact .epsilon (hsub _ he) ih
  | byte he hx _ ih => exact .byte (hsub _ he) hx ih

theorem rebase (hsub : ∀ e ∈ es, e.rebase c ∈ fs) (h : Walk es a w b) :
    Walk fs (a + c) w (b + c) := by
  induction h with
  | nil a => exact .nil _
  | epsilon he _ ih => exact .epsilon (hsub _ he) ih
  | byte he hx _ ih => exact .byte (hsub _ he) hx ih

theorem single_epsilon (he : ⟨a, b, .epsilon⟩ ∈ es) : Walk es a [] b := .epsilon he (.nil b)

theorem single_byte {s : ByteSet} (he : ⟨a, b, .bytes s⟩ ∈ es) (hx : s.test x = true) :
    Walk es a [x] b := .byte he hx (.nil b)

theorem exists_of_append (h : Walk es a (u ++ v) c) : ∃ b, Walk es a u b ∧ Walk es b v c := by
  generalize hw : u ++ v = w at h
  induction h generalizing u with
  | nil a =>
    obtain ⟨rfl,rfl⟩ := List.append_eq_nil_iff.mp hw
    exact ⟨a,.nil a,.nil a⟩
  | epsilon he _ ih =>
    obtain ⟨m,h₁,h₂⟩ := ih hw
    exact ⟨m,.epsilon he h₁,h₂⟩
  | @byte a b c s x w he hx hrest ih =>
    cases u with
    | nil =>
      rw [List.nil_append] at hw
      exact ⟨a,.nil a,hw ▸ .byte he hx hrest⟩
    | cons y u =>
      obtain ⟨rfl,htail⟩ := List.cons.inj hw
      obtain ⟨m,h₁,h₂⟩ := ih htail
      exact ⟨m,.byte he hx h₁,h₂⟩

theorem append_iff : Walk es a (u ++ v) c ↔ ∃ b, Walk es a u b ∧ Walk es b v c := by
  constructor
  · exact exists_of_append
  · intro hfrom
    obtain ⟨b,h,k⟩ := hfrom
    exact h.append k

theorem cons_iff : Walk es a (x :: w) c ↔ ∃ b, Walk es a [x] b ∧ Walk es b w c :=
  append_iff (u := [x])

/-- Reading one byte: empty moves, a byte move on it, empty moves. -/
theorem singleton_iff :
    Walk es a [x] c ↔
      ∃ m k s, Walk es a [] m ∧ ⟨m, k, .bytes s⟩ ∈ es ∧ s.test x = true ∧ Walk es k [] c := by
  constructor
  · intro h
    generalize hw : [x] = w at h
    induction h with
    | nil a => cases hw
    | epsilon he _ ih =>
      obtain ⟨m,k,s,h₁,hs,hx,h₂⟩ := ih hw
      exact ⟨m,k,s,.epsilon he h₁,hs,hx,h₂⟩
    | byte he hx hrest _ =>
      obtain ⟨rfl,rfl⟩ := List.cons.inj hw
      exact ⟨_,_,_,.nil _,he,hx,hrest⟩
  · rintro ⟨m,k,s,h₁,hs,hx,h₂⟩
    exact h₁.append (.byte hs hx h₂)

theorem single {e : Edge} (he : e ∈ es) (hw : e.label.Reads w) : Walk es e.source w e.target := by
  obtain ⟨a,b,l⟩ := e
  cases l with
  | epsilon =>
    cases hw
    exact single_epsilon he
  | bytes s =>
    obtain ⟨x,hx,rfl⟩ := hw
    exact single_byte he hx

theorem carries {P : Nat → List UInt8 → Prop} (hP : es.Carries P) (h : Walk es a w c)
    (hv : P a v) : P c (v ++ w) := by
  induction h generalizing v with
  | nil a => rwa [List.append_nil]
  | epsilon he _ ih =>
    have hnext := hP _ he [] rfl v hv
    rw [List.append_nil] at hnext
    exact ih hnext
  | @byte a b c s x w he hx _ ih =>
    rw [← List.singleton_append,← List.append_assoc]
    exact ih (hP _ he [x] ⟨x,hx,rfl⟩ v hv)

theorem eq_nil_of_no_entry (hno : ∀ e ∈ es, e.target ≠ c) (h : Walk es a w c) : w = [] := by
  have hstay : a = c ∧ w = [] := by
    induction h with
    | nil a => exact ⟨rfl,rfl⟩
    | epsilon he _ ih => exact absurd (ih hno).1 (hno _ he)
    | byte he _ _ ih => exact absurd (ih hno).1 (hno _ he)
  exact hstay.2

theorem target_lt {bound : Nat} (hlt : ∀ e ∈ es, e.target < bound) (h : Walk es a w c)
    (ha : a < bound) : c < bound := by
  induction h with
  | nil a => exact ha
  | epsilon he _ ih => exact ih (hlt _ he)
  | byte he _ _ ih => exact ih (hlt _ he)

end Walk

end EdgeList

end LexAutomata
