import LexAutomata.Proofs.Regex.Reading

namespace LexAutomata.Regex.Stack

inductive Call where
  | opening
  | fragment (f : Fragment) (built : f.Built)
  | bar
  | close
  | quantifier (q : Quantifier)

/-- The stack after the call, if it does not fail. A quantifier changes nothing where no fragment is on
top. -/
def perform (s : Stack) : Call → Except Failure Stack
  | .opening => .ok s.pushOpening
  | .fragment f _ => .ok (s.pushFragment f)
  | .bar => s.pushBar
  | .close => s.close
  | .quantifier q => .ok ((s.modifyTop? q.apply).getD s)

def next (s : Stack) (call : Call) : Stack :=
  match s.perform call with
  | .ok t => t
  | .error failure => failure.left

def after (calls : List Call) : Stack := calls.foldl next empty

def ended (gs : List Fragment) : List Item := gs.flatMap fun g => [.bar, .fragment g]

/-- The fragments of the last alternative of a group, the top one first, and its ended alternatives. -/
def group (fs gs : List Fragment) : List Item := fs.map .fragment ++ ended gs

/-- The items are groups on top of each other, and below them fragments outside of any group. -/
inductive Ordered : List Item → Prop where
  | loose {fs : List Fragment} : (∀ f ∈ fs, f.Built) → Ordered (fs.map .fragment)
  | group {fs gs : List Fragment} {below : List Item} : (∀ f ∈ fs, f.Built) →
      (∀ g ∈ gs, g.Built) → Ordered below → Ordered (group fs gs ++ .opening :: below)

variable {s : Stack} {fs gs : List Fragment} {items below : List Item} {f : Fragment}
  {w : List UInt8}

section Folds

theorem foldConcatOnto_loose (acc : Fragment) (fs : List Fragment) :
    foldConcatOnto acc (fs.map .fragment) = .error (underflow empty) := by
  induction fs generalizing acc with
  | nil => rfl
  | cons f fs ih => exact ih (f.concat acc)

theorem foldConcat_loose (fs : List Fragment) :
    foldConcat (fs.map .fragment) = .error (underflow empty) := by
  cases fs with
  | nil => rfl
  | cons f fs => exact foldConcatOnto_loose f fs

theorem foldConcat_group (hfs : ∀ f ∈ fs, f.Built) (gs : List Fragment) (below : List Item) :
    ∃ f : Fragment, f.Built ∧ f.language = joined fs ∧
      foldConcat (group fs gs ++ .opening :: below) =
        .ok (.fragment f :: (ended gs ++ .opening :: below)) := by
  rw [group,List.append_assoc]
  cases gs with
  | nil =>
    have hmark : Item.opening.IsMark := trivial
    exact foldConcat_fragments hfs hmark below
  | cons g gs =>
    have hmark : Item.bar.IsMark := trivial
    exact foldConcat_fragments hfs hmark _

theorem foldChoiceOnto_ended (hgs : ∀ g ∈ gs, g.Built) {acc : Fragment} (hacc : acc.Built)
    (below : List Item) :
    ∃ f : Fragment, f.Built ∧
      (∀ w, w ∈ f.language ↔ w ∈ acc.language ∨ ∃ g ∈ gs, w ∈ g.language) ∧
      foldChoiceOnto acc (ended gs ++ .opening :: below) = .ok (.fragment f :: below) := by
  induction gs generalizing acc with
  | nil => exact ⟨acc,hacc,by simp,rfl⟩
  | cons g gs ih =>
    have hg := hgs g List.mem_cons_self
    obtain ⟨f,hf,hlanguage,hfold⟩ :=
      ih (fun g hg => hgs g (List.mem_cons_of_mem _ hg)) (hg.choice hacc)
    refine ⟨f,hf,?_,hfold⟩
    intro w
    rw [hlanguage,Fragment.language_choice hg.wellFormed hacc.wellFormed,Language.mem_add,
      List.exists_mem_cons_iff,or_assoc]
    exact or_left_comm

theorem pushBar_loose (fs : List Fragment) :
    pushBar ⟨fs.map .fragment⟩ = .error (underflow empty) := by
  simp only [pushBar,foldConcat_loose]

theorem close_loose (fs : List Fragment) : close ⟨fs.map .fragment⟩ = .error (underflow empty) := by
  simp only [close,foldConcat_loose]

theorem pushBar_group (hfs : ∀ f ∈ fs, f.Built) (gs : List Fragment) (below : List Item) :
    ∃ f : Fragment, f.Built ∧ f.language = joined fs ∧
      pushBar ⟨group fs gs ++ .opening :: below⟩ =
        .ok ⟨group [] (f :: gs) ++ .opening :: below⟩ := by
  obtain ⟨f,hf,hlanguage,hfold⟩ := foldConcat_group hfs gs below
  refine ⟨f,hf,hlanguage,?_⟩
  simp only [pushBar,hfold]
  rfl

theorem close_group (hfs : ∀ f ∈ fs, f.Built) (hgs : ∀ g ∈ gs, g.Built) (below : List Item) :
    ∃ f : Fragment, f.Built ∧
      (∀ w, w ∈ f.language ↔ w ∈ joined fs ∨ ∃ g ∈ gs, w ∈ g.language) ∧
      close ⟨group fs gs ++ .opening :: below⟩ = .ok ⟨.fragment f :: below⟩ := by
  obtain ⟨acc,hacc,hjoined,hconcat⟩ := foldConcat_group hfs gs below
  obtain ⟨f,hf,hlanguage,hchoice⟩ := foldChoiceOnto_ended hgs hacc below
  refine ⟨f,hf,?_,?_⟩
  · intro w
    rw [hlanguage,hjoined]
  · have hfold : foldChoice (.fragment acc :: (ended gs ++ .opening :: below)) =
        .ok (.fragment f :: below) := hchoice
    simp only [close,hconcat,hfold]

end Folds

namespace Ordered

theorem fragment (h : Ordered items) (hf : f.Built) : Ordered (.fragment f :: items) := by
  cases h with
  | @loose fs hfs =>
    have hall : ∀ g ∈ f :: fs, g.Built := List.forall_mem_cons.mpr ⟨hf,hfs⟩
    exact .loose hall
  | @group fs gs below hfs hgs hbelow =>
    have hall : ∀ g ∈ f :: fs, g.Built := List.forall_mem_cons.mpr ⟨hf,hfs⟩
    exact .group hall hgs hbelow

theorem opening (h : Ordered items) : Ordered (.opening :: items) := by
  have hnone : ∀ f ∈ ([] : List Fragment), f.Built := List.forall_mem_nil _
  exact .group hnone hnone h

theorem built_of_top (h : Ordered (.fragment f :: items)) : f.Built ∧ Ordered items := by
  generalize hall : Item.fragment f :: items = all at h
  cases h with
  | @loose fs hfs =>
    cases fs with
    | nil => cases hall
    | cons g fs =>
      obtain ⟨hg,hrest⟩ := List.forall_mem_cons.mp hfs
      cases hall
      exact ⟨hg,.loose hrest⟩
  | @group fs gs below hfs hgs hbelow =>
    cases fs with
    | nil =>
      cases gs with
      | nil => cases hall
      | cons g gs => cases hall
    | cons g fs =>
      obtain ⟨hg,hrest⟩ := List.forall_mem_cons.mp hfs
      cases hall
      exact ⟨hg,.group hrest hgs hbelow⟩

theorem next (h : Ordered s.items) (call : Call) : Ordered (s.next call).items := by
  have hnone : ∀ f ∈ ([] : List Fragment), f.Built := List.forall_mem_nil _
  obtain ⟨items⟩ := s
  change Ordered items at h
  cases call with
  | opening => exact h.opening
  | fragment f hf => exact h.fragment hf
  | bar =>
    cases h with
    | @loose fs hfs =>
      have hnext : Stack.next ⟨fs.map .fragment⟩ .bar = empty := by
        rw [Stack.next,perform,pushBar_loose]
        rfl
      rw [hnext]
      exact .loose hnone
    | @group fs gs below hfs hgs hbelow =>
      obtain ⟨f,hf,_,hpush⟩ := pushBar_group hfs gs below
      have hnext : Stack.next ⟨Stack.group fs gs ++ .opening :: below⟩ .bar =
          ⟨Stack.group [] (f :: gs) ++ .opening :: below⟩ := by
        rw [Stack.next,perform,hpush]
      rw [hnext]
      exact .group hnone (List.forall_mem_cons.mpr ⟨hf,hgs⟩) hbelow
  | close =>
    cases h with
    | @loose fs hfs =>
      have hnext : Stack.next ⟨fs.map .fragment⟩ .close = empty := by
        rw [Stack.next,perform,close_loose]
        rfl
      rw [hnext]
      exact .loose hnone
    | @group fs gs below hfs hgs hbelow =>
      obtain ⟨f,hf,_,hclose⟩ := close_group hfs hgs below
      have hnext : Stack.next ⟨Stack.group fs gs ++ .opening :: below⟩ .close =
          ⟨.fragment f :: below⟩ := by
        rw [Stack.next,perform,hclose]
      rw [hnext]
      exact hbelow.fragment hf
  | quantifier q =>
    cases items with
    | nil => exact h
    | cons item items =>
      cases item with
      | opening => exact h
      | bar => exact h
      | fragment f =>
        obtain ⟨hf,hitems⟩ := h.built_of_top
        exact hitems.fragment (q.built_apply hf)

theorem after (calls : List Call) : Ordered (after calls).items := by
  apply List.foldlRecOn (motive := fun s : Stack => Ordered s.items)
  · exact .loose (List.forall_mem_nil _)
  · intro s h call _
    exact h.next call

end Ordered

section Alternatives

/-- The alternatives that bars separate, each with its fragments in the order in which they are read; the
last alternative comes first. -/
def alternatives : List Item → List (List Fragment)
  | [] => [[]]
  | .fragment f :: rest => (alternatives rest).modifyHead (· ++ [f])
  | _ :: rest => [] :: alternatives rest

/-- The word is one that the fragments accept in turn, a part of it each. -/
def InTurn (fs : List Fragment) (w : List UInt8) : Prop :=
  ∃ parts, List.Forall₂ (fun (f : Fragment) u => f.accepts u = true) fs parts ∧ parts.flatten = w

theorem alternatives_fragments (fs : List Fragment) (rest : List Item) :
    alternatives (fs.map .fragment ++ rest) = (alternatives rest).modifyHead (· ++ fs.reverse) := by
  induction fs with
  | nil =>
    rw [List.map_nil,List.nil_append]
    cases alternatives rest with
    | nil => rfl
    | cons group groups => simp
  | cons f fs ih =>
    rw [List.map_cons,List.cons_append,alternatives,ih]
    cases alternatives rest with
    | nil => rfl
    | cons group groups => simp

theorem alternatives_ended (gs : List Fragment) :
    alternatives (ended gs) = [] :: gs.map fun g => [g] := by
  induction gs with
  | nil => rfl
  | cons g gs ih =>
    have hbar : alternatives (ended (g :: gs)) =
        [] :: (alternatives (ended gs)).modifyHead (· ++ [g]) := rfl
    rw [hbar,ih]
    rfl

theorem alternatives_group (fs gs : List Fragment) :
    alternatives (group fs gs) = fs.reverse :: gs.map fun g => [g] := by
  rw [group,alternatives_fragments,alternatives_ended]
  rfl

theorem opening_notMem_group (fs gs : List Fragment) : .opening ∉ group fs gs := by
  simp [group,ended]

theorem mem_prod_iff (hfs : ∀ f ∈ fs, f.Built) :
    w ∈ (fs.map Fragment.language).prod ↔ InTurn fs w := by
  induction fs generalizing w with
  | nil =>
    rw [List.map_nil,List.prod_nil,Language.mem_one]
    constructor
    · intro hw
      exact ⟨[],.nil,hw.symm⟩
    · intro hfrom
      obtain ⟨parts,hparts,hw⟩ := hfrom
      cases hparts
      exact hw.symm
  | cons f fs ih =>
    obtain ⟨hf,hfs⟩ := List.forall_mem_cons.mp hfs
    rw [List.map_cons,List.prod_cons,Language.mem_mul]
    constructor
    · intro hfrom
      obtain ⟨u,hu,v,hv,hw⟩ := hfrom
      obtain ⟨parts,hparts,hflat⟩ := (ih hfs).mp hv
      have haccepts := (Fragment.accepts_iff hf.wellFormed).mpr hu
      exact ⟨u :: parts,.cons haccepts hparts,by rw [List.flatten_cons,hflat,hw]⟩
    · intro hfrom
      obtain ⟨parts,hparts,hw⟩ := hfrom
      cases hparts with
      | @cons _ u _ parts haccepts hparts =>
        have hu := (Fragment.accepts_iff hf.wellFormed).mp haccepts
        exact ⟨u,hu,parts.flatten,(ih hfs).mpr ⟨parts,hparts,rfl⟩,hw⟩

theorem mem_joined_iff (hfs : ∀ f ∈ fs, f.Built) : w ∈ joined fs ↔ InTurn fs.reverse w :=
  mem_prod_iff fun f hf => hfs f (List.mem_reverse.mp hf)

/-- Some alternative of a group reads the word. -/
theorem exists_alternative_iff (hfs : ∀ f ∈ fs, f.Built) (hgs : ∀ g ∈ gs, g.Built) :
    (∃ alternative ∈ alternatives (group fs gs), InTurn alternative w) ↔
      w ∈ joined fs ∨ ∃ g ∈ gs, w ∈ g.language := by
  have hsingle : ∀ g ∈ gs, InTurn [g] w ↔ w ∈ g.language := by
    intro g hg
    rw [← mem_prod_iff (by simpa using hgs g hg)]
    simp
  rw [alternatives_group,List.exists_mem_cons_iff,mem_joined_iff hfs]
  simp only [List.mem_map,exists_exists_and_eq_and]
  constructor
  · rintro (hlast | ⟨g,hg,hw⟩)
    · exact .inl hlast
    · exact .inr ⟨g,hg,(hsingle g hg).mp hw⟩
  · rintro (hlast | ⟨g,hg,hw⟩)
    · exact .inl hlast
    · exact .inr ⟨g,hg,(hsingle g hg).mpr hw⟩

end Alternatives

/-- The fragments down to the first mark have become one, which accepts what they accept in turn, and
it is below a bar. -/
def Barred (s t : Stack) : Prop :=
  ∃ (fs : List Fragment) (mark : Item) (below : List Item) (f : Fragment),
    s.items = fs.map .fragment ++ mark :: below ∧ mark.IsMark ∧
    t.items = .bar :: .fragment f :: mark :: below ∧ ∀ w, f.accepts w = true ↔ InTurn fs.reverse w

/-- All down to the last opening has become one fragment, which accepts what some alternative accepts. -/
def Closed (s t : Stack) : Prop :=
  ∃ (above below : List Item) (f : Fragment),
    s.items = above ++ .opening :: below ∧ .opening ∉ above ∧
    t.items = .fragment f :: below ∧
      ∀ w, f.accepts w = true ↔ ∃ alternative ∈ alternatives above, InTurn alternative w

/-- The call finds no opening and leaves nothing, or there is one and the call does its work. -/
def Settles (s : Stack) (done : Stack → Stack → Prop) (result : Except Failure Stack) : Prop :=
  .opening ∉ s.items ∧ result = .error (underflow empty) ∨
    .opening ∈ s.items ∧ ∃ t, result = .ok t ∧ done s t

theorem barred_group (hfs : ∀ f ∈ fs, f.Built) (gs : List Fragment) (below : List Item) (hf : f.Built)
    (hlanguage : f.language = joined fs) :
    Barred ⟨group fs gs ++ .opening :: below⟩ ⟨group [] (f :: gs) ++ .opening :: below⟩ := by
  have haccepts : ∀ w, f.accepts w = true ↔ InTurn fs.reverse w := by
    intro w
    rw [Fragment.accepts_iff hf.wellFormed,hlanguage,mem_joined_iff hfs]
  cases gs with
  | nil => exact ⟨fs,.opening,below,f,by simp [group,ended],trivial,rfl,haccepts⟩
  | cons g gs =>
    have hitems : group fs (g :: gs) ++ .opening :: below =
        fs.map .fragment ++ .bar :: .fragment g :: (ended gs ++ .opening :: below) := by
      rw [group,List.append_assoc]
      rfl
    exact ⟨fs,.bar,_,f,hitems,trivial,rfl,haccepts⟩

namespace Ordered

theorem settles_pushBar (h : Ordered s.items) : Settles s Barred s.pushBar := by
  obtain ⟨items⟩ := s
  change Ordered items at h
  cases h with
  | @loose fs hfs => exact .inl ⟨by simp,pushBar_loose fs⟩
  | @group fs gs below hfs hgs hbelow =>
    obtain ⟨f,hf,hlanguage,hpush⟩ := pushBar_group hfs gs below
    exact .inr ⟨by simp,_,hpush,barred_group hfs gs below hf hlanguage⟩

theorem settles_close (h : Ordered s.items) : Settles s Closed s.close := by
  obtain ⟨items⟩ := s
  change Ordered items at h
  cases h with
  | @loose fs hfs => exact .inl ⟨by simp,close_loose fs⟩
  | @group fs gs below hfs hgs hbelow =>
    obtain ⟨f,hf,hlanguage,hclose⟩ := close_group hfs hgs below
    have haccepts : ∀ w, f.accepts w = true ↔
        ∃ alternative ∈ alternatives (Stack.group fs gs), InTurn alternative w := by
      intro w
      rw [Fragment.accepts_iff hf.wellFormed,exists_alternative_iff hfs hgs]
      exact hlanguage w
    have hclosed : Closed ⟨Stack.group fs gs ++ .opening :: below⟩ ⟨.fragment f :: below⟩ :=
      ⟨_,below,f,rfl,opening_notMem_group fs gs,rfl,haccepts⟩
    exact .inr ⟨by simp,_,hclose,hclosed⟩

end Ordered

section Settles

variable {done : Stack → Stack → Prop} {result : Except Failure Stack}

theorem Settles.eq_underflow (h : Settles s done result) {failure : Failure}
    (hfails : result = .error failure) : failure = underflow empty := by
  cases h with
  | inl h => exact Except.error.inj (hfails.symm.trans h.2)
  | inr h =>
    obtain ⟨_,t,ht,_⟩ := h
    rw [ht] at hfails
    cases hfails

theorem Settles.fails_iff (h : Settles s done result) :
    (∃ failure, result = .error failure) ↔ .opening ∉ s.items := by
  constructor
  · intro hfrom
    obtain ⟨failure,hfails⟩ := hfrom
    cases h with
    | inl h => exact h.1
    | inr h =>
      obtain ⟨_,t,ht,_⟩ := h
      rw [ht] at hfails
      cases hfails
  · intro hnone
    cases h with
    | inl h => exact ⟨_,h.2⟩
    | inr h => exact absurd h.1 hnone

theorem Settles.done_of_ok (h : Settles s done result) {t : Stack} (ht : result = .ok t) :
    done s t := by
  cases h with
  | inl h =>
    rw [h.2] at ht
    cases ht
  | inr h =>
    obtain ⟨_,u,hu,hdone⟩ := h
    rw [hu] at ht
    cases ht
    exact hdone

end Settles

/-- After any calls, failed ones too, the operands are in order. A call fails only for want of an
opening, and then it leaves nothing; where there is one, a bar ends an alternative and closing joins the
alternatives. -/
theorem calls_in_order (calls : List Call) :
    (∀ call failure, (after calls).perform call = .error failure →
      failure = ⟨.underflow "[ ]", empty⟩) ∧
    ((∃ failure, (after calls).pushBar = .error failure) ↔ .opening ∉ (after calls).items) ∧
    ((∃ failure, (after calls).close = .error failure) ↔ .opening ∉ (after calls).items) ∧
    (∀ t, (after calls).pushBar = .ok t → Barred (after calls) t) ∧
    ∀ t, (after calls).close = .ok t → Closed (after calls) t := by
  have hbar := (Ordered.after calls).settles_pushBar
  have hclose := (Ordered.after calls).settles_close
  have hlayout : underflow empty = ⟨.underflow "[ ]", empty⟩ := rfl
  refine ⟨?_,hbar.fails_iff,hclose.fails_iff,fun t => hbar.done_of_ok,fun t => hclose.done_of_ok⟩
  intro call failure hfails
  rw [← hlayout]
  cases call with
  | bar => exact hbar.eq_underflow hfails
  | close => exact hclose.eq_underflow hfails
  | opening => cases hfails
  | fragment f hf => cases hfails
  | quantifier q => cases hfails

/-- A closing that fails takes its fragment away, and the groups opened after it are none the worse: the
inner one, a bar and a repeated byte, becomes one fragment above what was there before it. -/
theorem calls_in_order_of_failed_close :
    let byte := Fragment.ofSet (.singleton 97)
    let read := Call.fragment byte (.ofSet _)
    let before := [read, .close, .opening, read]
    let calls := before ++ [.opening, .bar, read, .quantifier .plus]
    (after [read]).close = .error ⟨.underflow "[ ]", empty⟩ ∧
      ∃ t f, (after calls).close = .ok t ∧ t.items = .fragment f :: (after before).items ∧
        f.accepts [97, 97] = true ∧ f.accepts [] = true ∧ f.accepts [98] = false ∧
        Closed (after calls) t := by
  intro byte read before calls
  obtain ⟨hunderflow,_,hfails,_,_⟩ := calls_in_order [read]
  obtain ⟨_,_,_,_,hclosed⟩ := calls_in_order calls
  obtain ⟨failure,hfailure⟩ := hfails.mpr (by decide)
  have hclose : (after calls).close =
      .ok ⟨.fragment (Fragment.emptyMatch.choice byte.plus) :: (after before).items⟩ := rfl
  refine ⟨?_,_,_,hclose,rfl,by decide +kernel,by decide +kernel,by decide +kernel,hclosed _ hclose⟩
  rw [hfailure,hunderflow .close failure hfailure]

end LexAutomata.Regex.Stack
