import LexAutomata.Proofs.Dfa.Canonical
import LexAutomata.Proofs.Fragment.Trim
import LexAutomata.Proofs.TaggedNfa.Simulation

namespace LexAutomata.TaggedNfa

variable {n m : TaggedNfa} {added : List (String × Fragment)} {f : Fragment} {name : String}
  {k : NamedFinal} {p q i known sink : Nat} {w : List UInt8} {table : NodeSet.Table} {d : Dfa}

/-- Some word leads from the node to the final node of a name. -/
def Ends (n : TaggedNfa) (q : Nat) : Prop := ∃ k ∈ n.finals, ∃ w, n.edges.Walk q w k.node

/-- Every node leads to a final node, unless there is none and the start is all there is. -/
def Live (n : TaggedNfa) : Prop := ∀ q < n.size, n.Ends q ∨ q = n.start ∧ n.finals = []

theorem Ends.of_final (hk : k ∈ n.finals) : n.Ends k.node := ⟨k,hk,[],.nil _⟩

theorem Ends.of_walk (hwalk : n.edges.Walk q w p) (h : n.Ends p) : n.Ends q := by
  obtain ⟨k,hk,v,hv⟩ := h
  exact ⟨k,hk,w ++ v,hwalk.append hv⟩

theorem Ends.of_epsilon (he : ⟨q, p, .epsilon⟩ ∈ n.edges) (h : n.Ends p) : n.Ends q :=
  h.of_walk (.single_epsilon he)

theorem live_empty : empty.Live := by
  intro q hq
  exact .inr ⟨Nat.lt_one_iff.mp hq,rfl⟩

section Add

theorem Live.ends_of_graft (h : n.Live) (hn : n.start = 0) (hf : f.Trim) (hwf : f.WellFormed)
    (hgraft : n.edges.Graft f n.size known sink m.edges) (hold : ∀ k ∈ n.finals, m.Ends k.node)
    (hfinal : m.Ends (f.final + n.size)) (hq : q < f.size + n.size) : m.Ends q := by
  -- the copy comes first: the start of an empty automaton leads nowhere else
  have hcopy : ∀ y < f.size, m.Ends (y + n.size) := by
    intro y hy
    obtain ⟨_,v,_,hv⟩ := hf y hy
    exact hfinal.of_walk (hv.rebase hgraft.copied)
  by_cases hlt : q < n.size
  · rcases h q hlt with ⟨k,hk,w,hw⟩ | ⟨rfl,_⟩
    · exact (hold k hk).of_walk (hw.mono hgraft.kept)
    · rw [hn]
      exact (hcopy f.start hwf.start_lt).of_epsilon hgraft.entered
  · obtain ⟨y,rfl⟩ := Nat.exists_eq_add_of_le' (Nat.le_of_not_lt hlt)
    exact hcopy y (by omega)

theorem Live.add_new (h : n.Live) (hmerges : n.Merges added) (hf : f.Trim) (hwf : f.WellFormed)
    (hnone : n.finals.find? (fun known => known.name == name) = none) : (n.add f name).Live := by
  rw [add_of_new hnone,hmerges.start_eq]
  intro q hq
  have hsize : q < f.size + n.size := by
    rw [Nat.add_comm]
    exact hq
  refine .inl (h.ends_of_graft hmerges.start_eq hf hwf (hmerges.graft_new hwf) ?_ ?_ hsize)
  · intro k hk
    exact .of_final (List.mem_append_left _ hk)
  · exact .of_final (k := ⟨name, f.final + n.size, false⟩) (by simp)

theorem Live.add_known (h : n.Live) (hmerges : n.Merges added) (hf : f.Trim) (hwf : f.WellFormed)
    (hk : k ∈ n.finals) (hjoins : Merges.Joins n f k sink m) : m.Live := by
  have hmeets := hjoins.meets
  have hsink : m.Ends sink := .of_final ((hjoins.mem_finals ⟨k.name, sink, true⟩).mpr (.inr rfl))
  have hfinal : m.Ends (f.final + n.size) :=
    hsink.of_epsilon ((hmeets.mem_iff _).mpr (.inr (.inr (.inr (.inl rfl)))))
  have hreplaced : m.Ends k.node := by
    by_cases hsame : sink = k.node
    · exact hsame ▸ hsink
    · exact hsink.of_epsilon ((hmeets.mem_iff _).mpr (.inr (.inr (.inr (.inr ⟨hsame,rfl⟩)))))
  have hold : ∀ l ∈ n.finals, m.Ends l.node := by
    intro l hl
    by_cases hname : l.name = k.name
    · rwa [hmerges.name_inj l hl k hk hname]
    · exact .of_final ((hjoins.mem_finals l).mpr (.inl ⟨hl,hname⟩))
  have hgraft := hmerges.graft_known hwf hk hmeets
  intro q hq
  rcases hjoins.lt_or_eq_sink q hq with hlt | rfl
  · exact .inl (h.ends_of_graft hmerges.start_eq hf hwf hgraft hold hfinal hlt)
  · exact .inl hsink

theorem Live.add (h : n.Live) (hmerges : n.Merges added) (hf : f.Trim) (hwf : f.WellFormed)
    (name : String) : (n.add f name).Live := by
  cases hfind : n.finals.find? (fun known => known.name == name) with
  | none => exact h.add_new hmerges hf hwf hfind
  | some k =>
    obtain ⟨hk,rfl,sink,hjoins⟩ := hmerges.exists_joins f hfind
    exact h.add_known hmerges hf hwf hk hjoins

theorem Live.foldl_add {rest : List (String × Fragment)} (h : n.Live) (hmerges : n.Merges added)
    (hrest : ∀ p ∈ rest, p.2.Built) : (rest.foldl (fun n p => n.add p.2 p.1) n).Live := by
  induction rest generalizing n added with
  | nil => exact h
  | cons p rest ih =>
    have hbuilt := hrest p List.mem_cons_self
    have hnext := h.add hmerges hbuilt.trim hbuilt.wellFormed p.1
    exact ih hnext (hmerges.add hbuilt.wellFormed p.1) fun q hq => hrest q (List.mem_cons_of_mem _ hq)

/-- The combinators leave no useless node, and neither does adding what they build. -/
theorem live_addAll (h : ∀ p ∈ added, p.2.Built) : (addAll added).Live :=
  live_empty.foldl_add merges_empty h

end Add

section Determinized

theorem Realizes.exists_walk (h : n.Realizes table d) (hi : n.Tracks table (some i) w) :
    ∃ q, n.edges.Walk n.start w q := by
  obtain ⟨s,hs,hreached⟩ := hi
  obtain ⟨q,hq⟩ := h.explored.nonempty s (List.mem_of_getElem? hs)
  exact ⟨q,(hreached.walks q).mp hq⟩

theorem Realizes.follow?_eq (h : n.Realizes table d) (hn : n.Bounded)
    (hi : n.Tracks table (some i) w) : d.follow? d.start w = some i := by
  obtain ⟨q,hq⟩ := h.exists_walk hi
  obtain ⟨j,hj,t,ht,htreached⟩ := h.exists_follow? hn hq
  obtain ⟨s,hs,hreached⟩ := hi
  have hsame : s = t := by
    refine NodeSet.ext_of_contains hreached.wellFormed htreached.wellFormed ?_ fun q => ?_
    · rw [hreached.bound_eq,htreached.bound_eq]
    · rw [Bool.eq_iff_iff,hreached.walks,htreached.walks]
  subst hsame
  obtain ⟨hilt,hieq⟩ := List.getElem?_eq_some_iff.mp hs
  obtain ⟨hjlt,hjeq⟩ := List.getElem?_eq_some_iff.mp ht
  have hnumber : i = j := h.explored.nodup.getElem_inj_iff.mp (hieq.trans hjeq.symm)
  rw [hnumber]
  exact hj

theorem Realizes.exists_tracks (h : n.Realizes table d) (hi : i < d.size) :
    ∃ w, n.Tracks table (some i) w := by
  have hlt : i < table.sets.length := by
    rw [h.described.length_eq]
    exact hi
  obtain ⟨w,hw⟩ := h.explored.reached _ (List.getElem_mem hlt)
  exact ⟨w,_,List.getElem?_eq_getElem hlt,hw⟩

theorem Realizes.exists_final (h : n.Realizes table d) (hn : n.Bounded)
    (hi : d.follow? d.start w = some i) (hwalk : n.edges.Walk n.start w q) (hq : n.Ends q) :
    ∃ v target, d.follow? i v = some target ∧ d.isFinal target = true := by
  obtain ⟨k,hk,v,hv⟩ := hq
  obtain ⟨target,htarget,htracks⟩ := h.exists_follow? hn (hwalk.append hv)
  have hname : k.name ∈ d.names target := by
    rw [h.mem_names_iff htracks]
    exact ⟨k,hk,rfl,hwalk.append hv⟩
  rw [Dfa.follow?_append,hi] at htarget
  exact ⟨v,target,htarget,Dfa.isFinal_iff.mpr ⟨k.name,hname⟩⟩

theorem Realizes.trim (h : n.Realizes table d) (hmerges : n.Merges added) (hlive : n.Live) :
    d.Trim where
  reached i hi := by
    obtain ⟨w,hw⟩ := h.exists_tracks hi
    exact ⟨w,h.follow?_eq hmerges.bounded hw⟩
  live w i hne hi := by
    have hbounded := hmerges.bounded
    have htracks := h.tracks hbounded w
    rw [hi] at htracks
    obtain ⟨q,hq⟩ := h.exists_walk htracks
    have hlt : q < n.size := hq.target_lt hbounded.target_lt hbounded.start_lt
    rcases hlive q hlt with hends | ⟨rfl,_⟩
    · exact h.exists_final hbounded hi hq hends
    · rw [hmerges.start_eq] at hq
      exact absurd (hq.eq_nil_of_no_entry fun e he => (hmerges.rooted e he).2.2) hne

end Determinized

end LexAutomata.TaggedNfa
