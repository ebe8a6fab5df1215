import LexAutomata.Proofs.Output.Tables

namespace LexAutomata

open Dfa (Runner)

variable {d : Dfa} {id target : Nat} {w : List UInt8} {required : List String}

def Dfa.Entered (d : Dfa) (id : Nat) : Prop := ∃ n ∈ d.nodes, ∃ t ∈ n.transitions, t.target = id

theorem Dfa.entered_of_next? {b : UInt8} (h : d.next? id b = some target) : d.Entered target := by
  simp only [Dfa.next?,Dfa.node?,Option.bind_eq_some_iff,DfaNode.next?,Option.map_eq_some_iff] at h
  obtain ⟨n,hn,t,ht,htarget⟩ := h
  exact ⟨n,List.mem_of_getElem? hn,t,List.mem_of_find?_eq_some ht,htarget⟩

theorem Dfa.entered_of_follow? (hw : w ≠ []) (h : d.follow? id w = some target) : d.Entered target := by
  rw [← List.dropLast_concat_getLast hw,Dfa.follow?_concat] at h
  obtain ⟨before,_,hnext⟩ := Option.bind_eq_some_iff.mp h
  exact Dfa.entered_of_next? hnext

namespace Output.Tables

/-- Some row leads to the node and refers to the names. -/
def TellsNames (t : Tables) (id : Nat) (names : List String) : Prop :=
  ∃ row ∈ t.everyRow, row.target = id ∧ ∃ i, row.names = some i ∧ t.names[i]? = some names

def namesInto (t : Tables) (id : Nat) : List String :=
  match t.everyRow.find? fun row => row.target == id with
  | none => []
  | some row => t.namesOf row

/-- The verdict on a word, without the automaton. -/
def accepts (t : Tables) (w : List UInt8) (required : List String) : Bool :=
  match t.walk? t.start none w with
  | none => false
  | some (node, _) => !(t.namesInto node).isEmpty && Runner.meets (t.namesInto node) required

theorem exists_mem_iff_entered : (∃ row ∈ (ofDfa d).everyRow, row.target = id) ↔ d.Entered id := by
  constructor
  · intro h
    obtain ⟨row,hrow,rfl⟩ := h
    obtain ⟨n,hn,t,ht,hdescribes⟩ := exists_describes_of_mem hrow
    exact ⟨n,hn,t,ht,hdescribes.target.symm⟩
  · intro h
    obtain ⟨n,hn,t,ht,rfl⟩ := h
    obtain ⟨row,hrow,hdescribes⟩ :=
      exists_mem_of_forall₂ (describes_everyRow d).flip (List.mem_flatMap.mpr ⟨n,hn,ht⟩)
    exact ⟨row,hrow,hdescribes.target⟩

theorem tellsNames_iff (hfinal : d.isFinal id = true) :
    (ofDfa d).TellsNames id (d.names id) ↔ d.Entered id := by
  constructor
  · intro h
    obtain ⟨row,hrow,rfl,_⟩ := h
    exact exists_mem_iff_entered.mp ⟨row,hrow,rfl⟩
  · intro h
    obtain ⟨row,hrow,rfl⟩ := exists_mem_iff_entered.mpr h
    obtain ⟨_,_,t,_,hdescribes⟩ := exists_describes_of_mem hrow
    rw [hdescribes.target] at hfinal ⊢
    rcases hdescribes.names with ⟨_,hempty⟩ | hplace
    · rw [Dfa.isFinal,hempty] at hfinal
      cases hfinal
    · exact ⟨row,hrow,hdescribes.target,hplace⟩

theorem namesInto_eq (h : d.isFinal id = true → d.Entered id) :
    (ofDfa d).namesInto id = d.names id := by
  unfold namesInto
  split
  case h_1 hnone =>
    have hrows : ¬ d.Entered id := by
      rw [← exists_mem_iff_entered]
      simpa using hnone
    have hfinal : ¬ d.isFinal id = true := fun hfinal => hrows (h hfinal)
    rw [Dfa.isFinal,Bool.not_eq_true',Bool.not_eq_false,List.isEmpty_iff] at hfinal
    exact hfinal.symm
  case h_2 row hfind =>
    have htarget : row.target = id := by simpa using List.find?_some hfind
    obtain ⟨_,_,t,_,hdescribes⟩ := exists_describes_of_mem (List.mem_of_find?_eq_some hfind)
    rw [hdescribes.namesOf_eq rfl,htarget]

/-- The tables give the verdict of the automaton, unless the names wanted are those of a start node that
nothing enters. -/
theorem accepts_ofDfa (h : w ≠ [] ∨ (d.isFinal d.start = true → d.Entered d.start)) :
    (ofDfa d).accepts w required = (Runner.accepts d w required).1 := by
  have hverdict : (Runner.accepts d w required).1 =
      Runner.accepted d (Runner.feed d ⟨d.start, false⟩ w) required := by
    rw [← Runner.run_eq_feed]
    rfl
  have hnone : ∀ row ∈ (none : Option Row), (ofDfa d).namesOf row = d.names d.start := by simp
  have hstart : (ofDfa d).start = d.start := rfl
  rw [hverdict,accepts,hstart]
  rcases walk?_cases d w hnone with ⟨hnode,hwalk⟩ | ⟨node,last,hnode,hwalk,_⟩
  · have hfailed : (Runner.feed d ⟨d.start, false⟩ w).failed = true := by
      rw [Runner.failed_feed,hnode]
      rfl
    rw [hwalk,Runner.accepted,Runner.isFinal,hfailed]
    rfl
  · have hentered : d.isFinal node = true → d.Entered node := by
      intro hfinal
      by_cases hw : w = []
      · subst hw
        cases hnode
        exact h.resolve_left (fun hne => hne rfl) hfinal
      · exact Dfa.entered_of_follow? hw hnode
    rw [hwalk,Runner.feed_of_follow? hnode,Runner.accepted,Runner.isFinal]
    dsimp only
    rw [namesInto_eq hentered]
    rfl

end Output.Tables

end LexAutomata
