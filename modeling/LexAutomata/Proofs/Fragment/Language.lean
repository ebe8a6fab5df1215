import LexAutomata.Proofs.Fragment.Shape
import LexAutomata.Proofs.NodeSet.Closure
import Mathlib.Computability.Language

namespace LexAutomata

open Computability

/-- The one-byte words of the members; a set without members stands for the empty word. -/
def ByteSet.language (s : ByteSet) : Language UInt8 :=
  {w | if s.isEmpty then w = [] else ∃ x, s.test x = true ∧ w = [x]}

theorem ByteSet.language_empty : ByteSet.empty.language = 1 := by
  ext w
  exact Iff.rfl

theorem ByteSet.mem_language {s : ByteSet} {w : List UInt8} :
    w ∈ s.language ↔
      (∃ x, s.test x = true ∧ w = [x]) ∨ (∀ x, ¬ s.test x = true) ∧ w = [] := by
  have hmem : w ∈ s.language ↔
      if s.isEmpty then w = [] else ∃ x, s.test x = true ∧ w = [x] := Iff.rfl
  rw [hmem]
  cases hempty : s.isEmpty with
  | true =>
    have hnone := isEmpty_iff.mp hempty
    simp [hnone]
  | false =>
    obtain ⟨x,hx⟩ := isEmpty_eq_false_iff.mp hempty
    have hsome : ¬ ∀ x, ¬ s.test x = true := fun hnone => hnone x hx
    simp only [hsome,false_and,or_false,Bool.false_eq_true,if_false]

def EdgeList.words (es : EdgeList) (a b : Nat) : Language UInt8 := {w | es.Walk a w b}

namespace Fragment

variable {f g : Fragment} {L : Language UInt8} {u v w : List UInt8} {e : Edge} {n : Nat}

def language (f : Fragment) : Language UInt8 := f.edges.words f.start f.final

theorem mem_language : w ∈ f.language ↔ f.edges.Walk f.start w f.final := Iff.rfl

/-- The words that lead to node `n` when a word of `L` is read before the fragment begins. -/
def readTo (f : Fragment) (L : Language UInt8) (n : Nat) : Language UInt8 :=
  L * f.edges.words f.start n

theorem mem_readTo :
    v ∈ f.readTo L n ↔ ∃ t ∈ L, ∃ u, f.edges.Walk f.start u n ∧ t ++ u = v := Language.mem_mul

theorem readTo_start (h : v ∈ L) : v ∈ f.readTo L f.start :=
  mem_readTo.mpr ⟨v,h,[],.nil _,List.append_nil v⟩

theorem readTo_edge (he : e ∈ f.edges) (hu : e.label.Reads u) (h : v ∈ f.readTo L e.source) :
    v ++ u ∈ f.readTo L e.target := by
  obtain ⟨t,ht,r,hr,rfl⟩ := mem_readTo.mp h
  exact mem_readTo.mpr ⟨t,ht,r ++ u,hr.append (.single he hu),by rw [List.append_assoc]⟩

theorem readTo_final (f : Fragment) (L : Language UInt8) : f.readTo L f.final = L * f.language := rfl

theorem mem_readTo_one : v ∈ f.readTo 1 n ↔ f.edges.Walk f.start v n := by
  rw [readTo,one_mul]
  rfl

theorem language_ofSet (s : ByteSet) : (ofSet s).language = s.language := by
  ext w
  have hone : ∀ u, (if s.isEmpty then Label.epsilon else .bytes s).Reads u ↔ u ∈ s.language := by
    intro u
    show _ ↔ if s.isEmpty then u = [] else ∃ x, s.test x = true ∧ u = [x]
    by_cases h : s.isEmpty = true
    · rw [if_pos h,if_pos h]
      rfl
    · rw [if_neg h,if_neg h]
      rfl
  constructor
  · intro hw
    have hP : (ofSet s).edges.Carries fun n v => (n = 0 ∧ v = []) ∨ (n = 1 ∧ v ∈ s.language) := by
      intro e he u hu v hv
      obtain rfl := mem_edges_ofSet.mp he
      rcases hv with ⟨_,rfl⟩ | ⟨h,_⟩
      · exact .inr ⟨rfl,(hone u).mp hu⟩
      · cases h
    rcases hw.carries hP (v := []) (.inl ⟨rfl,rfl⟩) with ⟨h,_⟩ | ⟨_,h⟩
    · cases h
    · exact h
  · intro hw
    exact .single (mem_edges_ofSet.mpr rfl) ((hone w).mpr hw)

theorem language_optional (h : f.WellFormed) : f.optional.language = f.language + 1 := by
  ext w
  rw [Language.mem_add,Language.mem_one]
  constructor
  · intro hw
    have hP : f.optional.edges.Carries fun n v =>
        f.edges.Walk f.start v n ∨ n = f.final ∧ v = [] := by
      intro e he u hu v hv
      rcases mem_edges_optional.mp he with he | rfl
      · rcases hv with hv | ⟨hsource,_⟩
        · exact .inl (hv.append (.single he hu))
        · exact absurd hsource (h.no_exit e he)
      · cases hu
        rcases hv with hv | ⟨hsource,_⟩
        · exact .inr ⟨rfl,by rw [hv.eq_nil_of_no_entry h.no_entry,List.nil_append]⟩
        · exact absurd hsource h.start_ne_final
    exact (hw.carries hP (v := []) (.inl (.nil _))).imp_right And.right
  · rintro (hw | rfl)
    · exact EdgeList.Walk.mono (fun e he => mem_edges_optional.mpr (.inl he)) hw
    · exact .single_epsilon (mem_edges_optional.mpr (.inr rfl))

/-- A way back from the final to the start node makes room for repetitions. -/
theorem walk_of_mem_mul_kstar {es : EdgeList} (hsub : ∀ e ∈ f.edges, e ∈ es)
    (hback : ⟨f.final, f.start, .epsilon⟩ ∈ es) (hw : w ∈ f.language * f.language∗) :
    es.Walk f.start w f.final := by
  have hle : f.language * f.language∗ ≤ es.words f.start f.final := by
    apply mul_kstar_le
    · intro u hu
      exact hu.mono hsub
    · intro u hu
      obtain ⟨v,hv,k,hk,rfl⟩ := Language.mem_mul.mp hu
      exact hv.append (.epsilon hback (hk.mono hsub))
  exact hle hw

theorem mem_language_loop (h : f.WellFormed) {k : Fragment} (skip : Prop)
    (hstart : k.start = f.size) (hfinal : k.final = f.size + 1)
    (hedges : ∀ e, e ∈ k.edges ↔ e ∈ f.edges ∨ e = ⟨f.final, f.start, .epsilon⟩ ∨
      e = ⟨f.size, f.start, .epsilon⟩ ∨ e = ⟨f.final, f.size + 1, .epsilon⟩ ∨
      skip ∧ e = ⟨f.size, f.size + 1, .epsilon⟩) :
    w ∈ k.language ↔ w ∈ f.language * f.language∗ ∨ skip ∧ w = [] := by
  have hs := h.start_lt
  have hf := h.final_lt
  rw [mem_language,hstart,hfinal]
  constructor
  · intro hw
    have hP : k.edges.Carries fun n v =>
        (n < f.size ∧ v ∈ f.readTo f.language∗ n) ∨ (n = f.size ∧ v = []) ∨
          (n = f.size + 1 ∧ (v ∈ f.language * f.language∗ ∨ skip ∧ v = [])) := by
      intro e he u hu v hv
      rcases (hedges e).mp he with he | rfl | rfl | rfl | ⟨hskip,rfl⟩
      · have hlt := h.bounded e he
        rcases hv with ⟨_,hv⟩ | ⟨hn,_⟩ | ⟨hn,_⟩
        · exact .inl ⟨hlt.2,readTo_edge he hu hv⟩
        · omega
        · omega
      all_goals
        cases hu
        rw [List.append_nil]
        dsimp only at hv ⊢
      · rcases hv with ⟨_,hv⟩ | ⟨hn,_⟩ | ⟨hn,_⟩
        · exact .inl ⟨hs,readTo_start (kstar_mul_le_kstar (a := f.language) hv)⟩
        · omega
        · omega
      · rcases hv with ⟨hn,_⟩ | ⟨_,rfl⟩ | ⟨hn,_⟩
        · omega
        · exact .inl ⟨hs,readTo_start (Language.nil_mem_kstar _)⟩
        · omega
      · rcases hv with ⟨_,hv⟩ | ⟨hn,_⟩ | ⟨hn,_⟩
        · rw [readTo_final,Language.mul_self_kstar_comm] at hv
          exact .inr (.inr ⟨rfl,.inl hv⟩)
        · omega
        · omega
      · rcases hv with ⟨hn,_⟩ | ⟨_,rfl⟩ | ⟨hn,_⟩
        · omega
        · exact .inr (.inr ⟨rfl,.inr ⟨hskip,rfl⟩⟩)
        · omega
    rcases hw.carries hP (v := []) (.inr (.inl ⟨rfl,rfl⟩)) with ⟨hn,_⟩ | ⟨hn,_⟩ | ⟨_,hv⟩
    · omega
    · omega
    · exact hv
  · rintro (hw | ⟨hskip,rfl⟩)
    · have hmiddle : k.edges.Walk f.start w f.final := walk_of_mem_mul_kstar
        (fun e he => (hedges e).mpr (.inl he)) ((hedges _).mpr (by simp)) hw
      have hin : k.edges.Walk f.size [] f.start := .single_epsilon ((hedges _).mpr (by simp))
      have hout : k.edges.Walk f.final [] (f.size + 1) :=
        .single_epsilon ((hedges _).mpr (by simp))
      have hall := hin.append (hmiddle.append hout)
      rwa [List.append_nil] at hall
    · exact .single_epsilon ((hedges _).mpr (by simp [hskip]))

theorem language_plus (h : f.WellFormed) : f.plus.language = f.language * f.language∗ := by
  ext w
  rw [mem_language_loop h False rfl rfl]
  · simp
  · intro e
    simp [mem_edges_plus]

theorem language_star (h : f.WellFormed) : f.star.language = f.language∗ := by
  ext w
  rw [mem_language_loop h True rfl rfl]
  · conv_rhs => rw [← one_add_mul_kstar,Language.mem_add,Language.mem_one]
    rw [true_and,or_comm]
  · intro e
    rw [mem_edges_star]
    tauto

theorem language_concat (hf : f.WellFormed) (g : Fragment) :
    (f.concat g).language = f.language * g.language := by
  have hfinal := hf.final_lt
  ext w
  rw [mem_language]
  constructor
  · intro hw
    have hP : (f.concat g).edges.Carries fun n v =>
        (n < f.size ∧ v ∈ f.readTo 1 n) ∨ ∃ k, n = k + f.size ∧ v ∈ g.readTo f.language k := by
      intro e he u hu v hv
      rcases mem_edges_concat.mp he with he | ⟨k,hk,rfl⟩ | rfl
      · have hlt := hf.bounded e he
        rcases hv with ⟨_,hv⟩ | ⟨k,hk,_⟩
        · exact .inl ⟨hlt.2,readTo_edge he hu hv⟩
        · omega
      · simp only [Edge.rebase] at hu hv ⊢
        rcases hv with ⟨hn,_⟩ | ⟨m,hm,hv⟩
        · omega
        · obtain rfl : k.source = m := by omega
          exact .inr ⟨_,rfl,readTo_edge hk hu hv⟩
      · cases hu
        rw [List.append_nil]
        dsimp only at hv ⊢
        rcases hv with ⟨_,hv⟩ | ⟨m,hm,_⟩
        · exact .inr ⟨_,rfl,readTo_start (mem_readTo_one.mp hv)⟩
        · omega
    rcases hw.carries hP (v := []) (.inl ⟨hf.start_lt,readTo_start Language.nil_mem_one⟩) with
      ⟨hn,_⟩ | ⟨m,hm,hv⟩
    · have : (f.concat g).final = g.final + f.size := rfl
      omega
    · have hsame : (f.concat g).final = g.final + f.size := rfl
      obtain rfl : m = g.final := by omega
      exact hv
  · intro hw
    obtain ⟨u,hu,v,hv,rfl⟩ := Language.mem_mul.mp hw
    have hfirst : (f.concat g).edges.Walk f.start u f.final :=
      EdgeList.Walk.mono (fun e he => mem_edges_concat.mpr (.inl he)) hu
    have hsecond : (f.concat g).edges.Walk (g.start + f.size) v (g.final + f.size) :=
      EdgeList.Walk.rebase (fun e he => mem_edges_concat.mpr (.inr (.inl ⟨e,he,rfl⟩))) hv
    exact hfirst.append (.epsilon (mem_edges_concat.mpr (.inr (.inr rfl))) hsecond)

theorem language_choice (hf : f.WellFormed) (hg : g.WellFormed) :
    (f.choice g).language = f.language + g.language := by
  have hfs := hf.start_lt
  have hff := hf.final_lt
  have hgs := hg.start_lt
  have hgf := hg.final_lt
  ext w
  rw [mem_language,Language.mem_add]
  show (f.choice g).edges.Walk (f.size + g.size) w (f.size + g.size + 1) ↔ _
  constructor
  · intro hw
    have hP : (f.choice g).edges.Carries fun n v =>
        (n < f.size ∧ v ∈ f.readTo 1 n) ∨
          (∃ k, k < g.size ∧ n = k + f.size ∧ v ∈ g.readTo 1 k) ∨
          (n = f.size + g.size ∧ v = []) ∨
          (n = f.size + g.size + 1 ∧ (v ∈ f.language ∨ v ∈ g.language)) := by
      intro e he u hu v hv
      rcases mem_edges_choice.mp he with he | ⟨k,hk,rfl⟩ | rfl | rfl | rfl | rfl
      · have hlt := hf.bounded e he
        rcases hv with ⟨_,hv⟩ | ⟨m,_,hm,_⟩ | ⟨hn,_⟩ | ⟨hn,_⟩
        · exact .inl ⟨hlt.2,readTo_edge he hu hv⟩
        all_goals omega
      · have hlt := hg.bounded k hk
        simp only [Edge.rebase] at hu hv ⊢
        rcases hv with ⟨hn,_⟩ | ⟨m,_,hm,hv⟩ | ⟨hn,_⟩ | ⟨hn,_⟩
        · omega
        · obtain rfl : k.source = m := by omega
          exact .inr (.inl ⟨_,hlt.2,rfl,readTo_edge hk hu hv⟩)
        all_goals omega
      all_goals
        cases hu
        rw [List.append_nil]
        dsimp only at hv ⊢
        rcases hv with ⟨hn,hv⟩ | ⟨m,hmlt,hm,hv⟩ | ⟨hn,hv⟩ | ⟨hn,hv⟩
        all_goals try omega
      · rw [hv]
        exact .inl ⟨hfs,readTo_start Language.nil_mem_one⟩
      · rw [hv]
        exact .inr (.inl ⟨_,hgs,rfl,readTo_start Language.nil_mem_one⟩)
      · exact .inr (.inr (.inr ⟨rfl,.inl (mem_readTo_one.mp hv)⟩))
      · obtain rfl : g.final = m := by omega
        exact .inr (.inr (.inr ⟨rfl,.inr (mem_readTo_one.mp hv)⟩))
    rcases hw.carries hP (v := []) (.inr (.inr (.inl ⟨rfl,rfl⟩))) with
      ⟨hn,_⟩ | ⟨m,hmlt,hm,_⟩ | ⟨hn,_⟩ | ⟨_,hv⟩
    · omega
    · omega
    · omega
    · exact hv
  · rintro (hw | hw)
    · have hmiddle : (f.choice g).edges.Walk f.start w f.final :=
        EdgeList.Walk.mono (fun e he => mem_edges_choice.mpr (.inl he)) hw
      have hout : (f.choice g).edges.Walk f.final [] (f.size + g.size + 1) :=
        .single_epsilon (mem_edges_choice.mpr (by simp))
      have hall := hmiddle.append hout
      rw [List.append_nil] at hall
      exact .epsilon (mem_edges_choice.mpr (by simp)) hall
    · have hmiddle : (f.choice g).edges.Walk (g.start + f.size) w (g.final + f.size) :=
        EdgeList.Walk.rebase (fun e he => mem_edges_choice.mpr (.inr (.inl ⟨e,he,rfl⟩))) hw
      have hout : (f.choice g).edges.Walk (g.final + f.size) [] (f.size + g.size + 1) :=
        .single_epsilon (mem_edges_choice.mpr (by simp))
      have hall := hmiddle.append hout
      rw [List.append_nil] at hall
      exact .epsilon (mem_edges_choice.mpr (by simp)) hall

section Sets

variable {current : NodeSet} {x : UInt8}

theorem bound_initial (f : Fragment) : f.initial.bound = f.size := by
  rw [initial,NodeSet.bound_close,NodeSet.bound_singleton]

theorem target_lt_of_bound (h : f.WellFormed) {s : NodeSet} (hs : s.bound = f.size) :
    ∀ e ∈ f.edges, e.target < s.bound := by
  intro e he
  rw [hs]
  exact (h.bounded e he).2

theorem closed_initial (h : f.WellFormed) : f.initial.Closed f.edges :=
  NodeSet.closed_close (NodeSet.wellFormed_singleton _ _) fun e he _ =>
    target_lt_of_bound h (NodeSet.bound_singleton _ _) e he

theorem contains_initial (h : f.WellFormed) :
    f.initial.contains n = true ↔ f.edges.Walk f.start [] n := by
  rw [initial,NodeSet.contains_close (NodeSet.wellFormed_singleton _ _) fun e he _ =>
    target_lt_of_bound h (NodeSet.bound_singleton _ _) e he]
  simp only [NodeSet.contains_singleton,h.start_lt,and_true,exists_eq_left]

theorem bound_next (hbound : current.bound = f.size) :
    ((current.step f.edges x).close f.edges).bound = f.size := by
  rw [NodeSet.bound_close,NodeSet.bound_step,hbound]

theorem closed_next (h : f.WellFormed) (hbound : current.bound = f.size) :
    ((current.step f.edges x).close f.edges).Closed f.edges := by
  have hstep : (current.step f.edges x).bound = f.size := by rw [NodeSet.bound_step,hbound]
  exact NodeSet.closed_close (NodeSet.wellFormed_step _ _ _) fun e he _ =>
    target_lt_of_bound h hstep e he

theorem contains_next (h : f.WellFormed) (hbound : current.bound = f.size)
    (hclosed : current.Closed f.edges) :
    ((current.step f.edges x).close f.edges).contains n = true ↔
      ∃ a, current.contains a = true ∧ f.edges.Walk a [x] n := by
  have hstep : (current.step f.edges x).bound = f.size := by rw [NodeSet.bound_step,hbound]
  refine NodeSet.contains_close_of_moves hclosed (NodeSet.wellFormed_step _ _ _)
    (target_lt_of_bound h hstep) fun k => ?_
  rw [NodeSet.contains_step,NodeSet.bound_step]

theorem exists_contains_next (h : f.WellFormed) (hbound : current.bound = f.size)
    (hclosed : current.Closed f.edges) :
    (∃ b, ((current.step f.edges x).close f.edges).contains b = true ∧ f.edges.Walk b w n) ↔
      ∃ a, current.contains a = true ∧ f.edges.Walk a (x :: w) n := by
  constructor
  · intro hfrom
    obtain ⟨b,hb,hwalk⟩ := hfrom
    obtain ⟨a,ha,hfirst⟩ := (contains_next h hbound hclosed).mp hb
    exact ⟨a,ha,hfirst.append hwalk⟩
  · intro hfrom
    obtain ⟨a,ha,hwalk⟩ := hfrom
    obtain ⟨b,hfirst,hrest⟩ := EdgeList.Walk.cons_iff.mp hwalk
    exact ⟨b,(contains_next h hbound hclosed).mpr ⟨a,ha,hfirst⟩,hrest⟩

end Sets

theorem acceptsFrom_iff (h : f.WellFormed) {current : NodeSet}
    (hbound : current.bound = f.size) (hclosed : current.Closed f.edges) :
    f.acceptsFrom current w = true ↔
      ∃ a, current.contains a = true ∧ f.edges.Walk a w f.final := by
  induction w generalizing current with
  | nil =>
    rw [acceptsFrom]
    constructor
    · intro hfinal
      exact ⟨f.final,hfinal,.nil _⟩
    · intro hfrom
      obtain ⟨a,ha,hwalk⟩ := hfrom
      exact hclosed a _ ha hwalk
  | cons x w ih =>
    rw [← exists_contains_next h hbound hclosed]
    simp only [acceptsFrom]
    split
    · -- the early exit: no node is left, so no walk goes on
      rename_i hempty
      have hwf := NodeSet.wellFormed_step current f.edges x
      have hstep : (current.step f.edges x).bound = f.size := by rw [NodeSet.bound_step,hbound]
      have hnone := (NodeSet.isEmpty_iff hwf).mp hempty
      simp only [Bool.false_eq_true,false_iff]
      rintro ⟨b,hb,_⟩
      obtain ⟨k,hk,_⟩ := (NodeSet.contains_close hwf fun e he _ =>
        target_lt_of_bound h hstep e he).mp hb
      rw [hnone k] at hk
      cases hk
    · exact ih (bound_next hbound) (closed_next h hbound)

/-- Running the fragment decides its language. -/
theorem accepts_iff (h : f.WellFormed) : f.accepts w = true ↔ w ∈ f.language := by
  rw [accepts,acceptsFrom_iff h (bound_initial f) (closed_initial h),mem_language]
  constructor
  · intro hfrom
    obtain ⟨a,ha,hwalk⟩ := hfrom
    exact ((contains_initial h).mp ha).append hwalk
  · intro hwalk
    exact ⟨f.start,(contains_initial h).mpr (.nil _),hwalk⟩

theorem mem_mul_kstar :
    w ∈ L * L∗ ↔ ∃ parts : List (List UInt8), parts ≠ [] ∧ (∀ p ∈ parts, p ∈ L) ∧ parts.flatten = w := by
  simp only [Language.mem_mul,Language.mem_kstar]
  constructor
  · intro hfrom
    obtain ⟨u,hu,_,⟨parts,rfl,hparts⟩,hw⟩ := hfrom
    have hall : ∀ p ∈ u :: parts, p ∈ L := by simpa using ⟨hu,hparts⟩
    exact ⟨u :: parts,by simp,hall,by rw [List.flatten_cons,hw]⟩
  · intro hfrom
    obtain ⟨parts,hne,hparts,hw⟩ := hfrom
    cases parts with
    | nil => exact absurd rfl hne
    | cons u parts =>
      have hrest : ∀ p ∈ parts, p ∈ L := fun p hp => hparts p (List.mem_cons_of_mem _ hp)
      have hu := hparts u List.mem_cons_self
      rw [List.flatten_cons] at hw
      exact ⟨u,hu,parts.flatten,⟨parts,rfl,hrest⟩,hw⟩

/-- Whatever the fragments were built from, each combinator accepts what its regular operation says of
the words that they accept. -/
theorem accepts_combinators (hf : f.Built) (hg : g.Built) (w : List UInt8) :
    (f.optional.accepts w = true ↔ f.accepts w = true ∨ w = []) ∧
    (f.star.accepts w = true ↔
      ∃ parts : List (List UInt8), (∀ p ∈ parts, f.accepts p = true) ∧ parts.flatten = w) ∧
    (f.plus.accepts w = true ↔
      ∃ parts : List (List UInt8),
        parts ≠ [] ∧ (∀ p ∈ parts, f.accepts p = true) ∧ parts.flatten = w) ∧
    ((f.concat g).accepts w = true ↔
      ∃ u v, f.accepts u = true ∧ g.accepts v = true ∧ u ++ v = w) ∧
    ((f.choice g).accepts w = true ↔ f.accepts w = true ∨ g.accepts w = true) := by
  have hwf := hf.wellFormed
  have hwg := hg.wellFormed
  simp only [accepts_iff hwf,accepts_iff hwg,accepts_iff hwf.optional,accepts_iff hwf.star,
    accepts_iff hwf.plus,accepts_iff (hwf.concat hwg),accepts_iff (hwf.choice hwg)]
  refine ⟨?_,?_,?_,?_,?_⟩
  · rw [language_optional hwf,Language.mem_add,Language.mem_one]
  · rw [language_star hwf,Language.mem_kstar]
    exact exists_congr fun parts => by rw [and_comm,eq_comm]
  · rw [language_plus hwf,mem_mul_kstar]
  · rw [language_concat hwf,Language.mem_mul]
    simp only [exists_and_left]
  · rw [language_choice hwf hwg,Language.mem_add]

/-- Quantifiers on top of each other, and the result after a copy of itself and beside one. -/
theorem accepts_combinators_of_nested :
    (ofSet (.singleton 97)).plus.optional.Built ∧
      (ofSet (.singleton 97)).plus.optional.star.accepts [97, 97, 97] = true ∧
      ((ofSet (.singleton 97)).plus.optional.concat
        (ofSet (.singleton 97)).plus.optional).accepts [97] = true ∧
      ((ofSet (.singleton 97)).plus.optional.choice
        (ofSet (.singleton 97)).plus.optional).accepts [98] = false := by
  have hbuilt : (ofSet (.singleton 97)).plus.optional.Built := .optional (.plus (.ofSet _))
  have hempty : (ofSet (.singleton 97)).plus.optional.accepts [] = true := by decide +kernel
  have hone : (ofSet (.singleton 97)).plus.optional.accepts [97] = true := by decide +kernel
  have hother : (ofSet (.singleton 97)).plus.optional.accepts [98] = false := by decide +kernel
  refine ⟨hbuilt,?_,?_,?_⟩
  · exact (accepts_combinators hbuilt hbuilt _).2.1.mpr ⟨[[97], [97], [97]],by simp [hone],rfl⟩
  · exact (accepts_combinators hbuilt hbuilt _).2.2.2.1.mpr ⟨[],[97],hempty,hone,rfl⟩
  · have hchoice := (accepts_combinators hbuilt hbuilt [98]).2.2.2.2
    rw [hother] at hchoice
    simpa using hchoice

end Fragment

end LexAutomata
