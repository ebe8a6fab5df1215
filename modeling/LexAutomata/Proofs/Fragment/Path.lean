import LexAutomata.Proofs.Fragment.Language

namespace LexAutomata

namespace EdgeList

/-- Edges of the list that lead from one node to another, each from where the one before it ends. -/
inductive Path (es : EdgeList) : Nat → List Edge → Nat → Prop where
  | nil (a : Nat) : Path es a [] a
  | cons {a b c : Nat} {label : Label} {p : List Edge} :
      ⟨a, b, label⟩ ∈ es → Path es b p c → Path es a (⟨a, b, label⟩ :: p) c

def labels (p : List Edge) : List ByteSet :=
  p.filterMap fun e =>
    match e.label with
    | .epsilon => none
    | .bytes s => some s

/-- The byte moves of the path read the bytes of the word one by one. -/
def Spells (p : List Edge) (w : List UInt8) : Prop :=
  List.Forall₂ (fun s x => s.test x = true) (labels p) w

variable {es : EdgeList} {p : List Edge} {a b : Nat} {s : ByteSet} {w : List UInt8}

theorem labels_bytes (a b : Nat) (s : ByteSet) (p : List Edge) :
    labels (⟨a, b, .bytes s⟩ :: p) = s :: labels p := rfl

theorem Path.walk (h : es.Path a p b) (hw : Spells p w) : es.Walk a w b := by
  induction h generalizing w with
  | nil a =>
    cases hw
    exact .nil a
  | @cons a b c label p he _ ih =>
    cases label with
    | epsilon => exact .epsilon he (ih hw)
    | bytes s =>
      rw [Spells,labels_bytes] at hw
      cases hw with
      | cons hx hrest => exact .byte he hx (ih hrest)

theorem Walk.exists_path (h : es.Walk a w b) : ∃ p, es.Path a p b ∧ Spells p w := by
  induction h with
  | nil a => exact ⟨[],.nil a,.nil⟩
  | @epsilon a b c w he _ ih =>
    obtain ⟨p,hp,hw⟩ := ih
    exact ⟨⟨a, b, .epsilon⟩ :: p,.cons he hp,hw⟩
  | @byte a b c s x w he hx _ ih =>
    obtain ⟨p,hp,hw⟩ := ih
    exact ⟨⟨a, b, .bytes s⟩ :: p,.cons he hp,.cons hx hw⟩

theorem walk_iff_path : es.Walk a w b ↔ ∃ p, es.Path a p b ∧ Spells p w := by
  constructor
  · exact Walk.exists_path
  · intro hfrom
    obtain ⟨p,hp,hw⟩ := hfrom
    exact hp.walk hw

end EdgeList

namespace Fragment

variable {f g : Fragment} {current : NodeSet} {w : List UInt8} {n : Nat}

/-- The nodes at the end of the word. It is read to its end even if no node is left on the way. -/
def reached (f : Fragment) (w : List UInt8) : NodeSet :=
  w.foldl (fun s x => (s.step f.edges x).close f.edges) f.initial

theorem contains_foldl_next (h : f.WellFormed) (hbound : current.bound = f.size)
    (hclosed : current.Closed f.edges) :
    (w.foldl (fun s x => (s.step f.edges x).close f.edges) current).contains n = true ↔
      ∃ a, current.contains a = true ∧ f.edges.Walk a w n := by
  induction w generalizing current with
  | nil =>
    constructor
    · intro hn
      exact ⟨n,hn,.nil n⟩
    · intro hfrom
      obtain ⟨a,ha,hwalk⟩ := hfrom
      exact hclosed a n ha hwalk
  | cons x w ih =>
    rw [List.foldl_cons,ih (bound_next hbound) (closed_next h hbound)]
    exact exists_contains_next h hbound hclosed

theorem contains_reached (h : f.WellFormed) :
    (f.reached w).contains n = true ↔ f.edges.Walk f.start w n := by
  rw [reached,contains_foldl_next h (bound_initial f) (closed_initial h)]
  constructor
  · intro hfrom
    obtain ⟨a,ha,hwalk⟩ := hfrom
    exact ((contains_initial h).mp ha).append hwalk
  · intro hwalk
    exact ⟨f.start,(contains_initial h).mpr (.nil _),hwalk⟩

theorem WellFormed.reorder (h : f.WellFormed) {es : EdgeList} (hes : ∀ e, e ∈ es ↔ e ∈ f.edges) :
    { f with edges := es }.WellFormed where
  start_lt := h.start_lt
  final_lt := h.final_lt
  start_ne_final := h.start_ne_final
  bounded e he := h.bounded e ((hes e).mp he)
  no_entry e he := h.no_entry e ((hes e).mp he)
  no_exit e he := h.no_exit e ((hes e).mp he)

theorem language_reorder {es : EdgeList} (hes : ∀ e, e ∈ es ↔ e ∈ f.edges) :
    { f with edges := es }.language = f.language := by
  ext w
  constructor
  · intro hw
    exact EdgeList.Walk.mono (fun e he => (hes e).mp he) hw
  · intro hw
    exact EdgeList.Walk.mono (fun e he => (hes e).mpr he) hw

/-- A fragment accepts what its paths from the start to the final node spell. It accepts the same when
the word is always read to its end, and with the edges in any other order and any number of times. -/
theorem accepts_along_paths (hf : f.Built) (w : List UInt8) :
    (f.accepts w = true ↔
      ∃ p, f.edges.Path f.start p f.final ∧ EdgeList.Spells p w) ∧
    f.accepts w = (f.reached w).contains f.final ∧
    ∀ es : EdgeList, (∀ e, e ∈ es ↔ e ∈ f.edges) →
      { f with edges := es }.accepts w = f.accepts w := by
  have hwf := hf.wellFormed
  refine ⟨?_,?_,?_⟩
  · rw [accepts_iff hwf,mem_language]
    exact EdgeList.walk_iff_path
  · rw [Bool.eq_iff_iff,accepts_iff hwf,contains_reached hwf]
    exact Iff.rfl
  · intro es hes
    rw [Bool.eq_iff_iff,accepts_iff (hwf.reorder hes),accepts_iff hwf,language_reorder hes]

/-- A repetition of an optional byte can go around without reading anything. Its edges may come the other
way around. -/
theorem accepts_along_paths_of_cycle :
    let f := (ofSet (.singleton 97)).optional.star
    f.Built ∧ f.accepts [97, 97] = true ∧
      { f with edges := f.edges.reverse }.accepts [97, 97] = true ∧ f.accepts [98, 97] = false ∧
      (f.reached [98, 97]).contains f.final = false := by
  intro f
  have hbuilt : f.Built := .star (.optional (.ofSet _))
  let back : Edge := ⟨1, 0, .epsilon⟩
  let read : Edge := ⟨0, 1, .bytes (.singleton 97)⟩
  have hpath : f.edges.Path 2
      [⟨2, 0, .epsilon⟩, read, back, ⟨0, 1, .epsilon⟩, back, read, ⟨1, 3, .epsilon⟩] 3 :=
    .cons (by decide) (.cons (by decide) (.cons (by decide) (.cons (by decide) (.cons (by decide)
      (.cons (by decide) (.cons (by decide) (.nil 3)))))))
  obtain ⟨hpaths,_,horder⟩ := accepts_along_paths hbuilt [97, 97]
  have haccepts : f.accepts [97, 97] = true :=
    hpaths.mpr ⟨_,hpath,.cons (by decide) (.cons (by decide) .nil)⟩
  have hother : f.accepts [98, 97] = false := by decide +kernel
  refine ⟨hbuilt,haccepts,?_,hother,?_⟩
  · rw [horder _ fun e => List.mem_reverse]
    exact haccepts
  · rw [← (accepts_along_paths hbuilt [98, 97]).2.1]
    exact hother

end Fragment

end LexAutomata
