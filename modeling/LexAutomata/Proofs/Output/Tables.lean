import LexAutomata.Output.Tables
import LexAutomata.Proofs.Dfa.Run
import Mathlib.Data.List.Forall2
import Mathlib.Data.List.Nodup

namespace LexAutomata.Output

open Dfa (Runner)

def marks (label : String) (b : UInt8) : Bool := label.toList[b.toNat]? == some '1'

namespace Tables

def rowsOf (t : Tables) (id : Nat) : List Row := (t.rows[id]?.join).getD []

def row? (t : Tables) (id : Nat) (b : UInt8) : Option Row :=
  (t.rowsOf id).find? fun row => (t.labels[row.label]?).any fun label => marks label b

def namesOf (t : Tables) (row : Row) : List String :=
  match row.names with
  | none => []
  | some i => (t.names[i]?).getD []

/-- The node that a word leads to, and the last row taken. -/
def walk? (t : Tables) (id : Nat) (last : Option Row) : List UInt8 → Option (Nat × Option Row)
  | [] => some (id, last)
  | b :: w =>
    match t.row? id b with
    | none => none
    | some row => walk? t row.target (some row) w

def everyRow (t : Tables) : List Row := t.rows.flatMap fun rows => rows.getD []

/-- Every position is that of an entry and every entry has a position in some row; no entry is stored
twice. -/
structure Compact (t : Tables) : Prop where
  start_lt : t.start < t.rows.length
  label_lt : ∀ row ∈ t.everyRow, row.label < t.labels.length
  target_lt : ∀ row ∈ t.everyRow, row.target < t.rows.length
  names_lt : ∀ row ∈ t.everyRow, ∀ i, row.names = some i → i < t.names.length
  nodup_labels : t.labels.Nodup
  nodup_names : t.names.Nodup
  label_used : ∀ i < t.labels.length, ∃ row ∈ t.everyRow, row.label = i
  names_used : ∀ i < t.names.length, ∃ row ∈ t.everyRow, row.names = some i

end Tables

section Interning

variable {α : Type} {es more last : List α} {places others : List Nat}

/-- The entries have grown by storing something at each of the places: at the end, once each. -/
structure Grown (es : List α) (places : List Nat) (more : List α) : Prop where
  keeps : es <+: more
  nodup : es.Nodup → more.Nodup
  used : ∀ i < more.length, i < es.length ∨ i ∈ places

theorem Grown.refl (es : List α) : Grown es [] es := ⟨List.prefix_rfl,id,fun _ hi => .inl hi⟩

theorem Grown.trans (h : Grown es places more) (hlast : Grown more others last) :
    Grown es (places ++ others) last where
  keeps := h.keeps.trans hlast.keeps
  nodup hes := hlast.nodup (h.nodup hes)
  used i hi := by
    rcases hlast.used i hi with hi | hi
    · exact (h.used i hi).imp_right (List.mem_append_left _)
    · exact .inr (List.mem_append_right _ hi)

variable [DecidableEq α]

theorem grown_intern (es : List α) (a : α) : Grown es [(intern es a).1] (intern es a).2 := by
  unfold intern
  split
  · exact ⟨List.prefix_rfl,id,fun _ hi => .inl hi⟩
  · rename_i hnone
    refine ⟨List.prefix_append _ _,fun hes => ?_,fun i hi => ?_⟩
    · rw [← List.concat_eq_append]
      refine hes.concat fun ha => ?_
      have := List.findIdx?_eq_none_iff.mp hnone a ha
      simp at this
    · rw [List.length_append,List.length_singleton] at hi
      rw [List.mem_singleton]
      omega

theorem getElem?_intern (es : List α) (a : α) : (intern es a).2[(intern es a).1]? = some a := by
  unfold intern
  split
  · rename_i i hfind
    obtain ⟨hlt,hi,_⟩ := List.findIdx?_eq_some_iff_getElem.mp hfind
    rw [List.getElem?_eq_getElem hlt,beq_iff_eq.mp hi]
  · simp

end Interning

theorem getElem?_of_kept {α : Type} {es more : List α} (h : es <+: more) {i : Nat} {a : α}
    (hi : es[i]? = some a) : more[i]? = some a := by
  obtain ⟨hlt,rfl⟩ := List.getElem?_eq_some_iff.mp hi
  exact List.prefix_iff_getElem?.mp h i hlt

theorem exists_mem_of_forall₂ {α β : Type} {R : α → β → Prop} {as : List α} {bs : List β}
    (h : List.Forall₂ R as bs) {b : β} (hb : b ∈ bs) : ∃ a ∈ as, R a b := by
  induction h with
  | nil => cases hb
  | cons hab _ ih =>
    rcases List.mem_cons.mp hb with rfl | hb
    · exact ⟨_,List.mem_cons_self,hab⟩
    · obtain ⟨a,ha,hab⟩ := ih hb
      exact ⟨a,List.mem_cons_of_mem _ ha,hab⟩

theorem marks_membership (s : ByteSet) (b : UInt8) : marks (membership s) b = s.test b := by
  have hb : ByteSet.allBytes[b.toNat]? = some b := by
    simp [ByteSet.allBytes, b.toNat_lt]
  rw [marks,membership,String.toList_ofList,List.getElem?_map,hb,Option.map_some]
  cases s.test b <;> decide

namespace Tables

variable {d : Dfa} {entries later : Entries} {ts : List Transition} {row : Row} {t : Transition}

/-- The row tells the label, the target and the names of the transition. -/
structure Describes (d : Dfa) (entries : Entries) (t : Transition) (row : Row) : Prop where
  label : entries.labels[row.label]? = some (membership t.label)
  target : row.target = t.target
  names : row.names = none ∧ d.names t.target = [] ∨
    ∃ i, row.names = some i ∧ entries.names[i]? = some (d.names t.target)

/-- The rows have filled the tables. -/
structure Fills (entries : Entries) (rows : List Row) (later : Entries) : Prop where
  labels : Grown entries.labels (rows.map (·.label)) later.labels
  names : Grown entries.names (rows.filterMap (·.names)) later.names

theorem Fills.refl (entries : Entries) : Fills entries [] entries := ⟨.refl _,.refl _⟩

theorem Fills.trans {rows others : List Row} {last : Entries} (h : Fills entries rows later)
    (hlast : Fills later others last) : Fills entries (rows ++ others) last where
  labels := List.map_append ▸ h.labels.trans hlast.labels
  names := List.filterMap_append ▸ h.names.trans hlast.names

theorem Describes.mono {rows : List Row} (h : Describes d entries t row)
    (hlater : Fills entries rows later) : Describes d later t row where
  label := getElem?_of_kept hlater.labels.keeps h.label
  target := h.target
  names := h.names.imp_right fun ⟨i,hi,hname⟩ => ⟨i,hi,getElem?_of_kept hlater.names.keeps hname⟩

theorem describes_row (d : Dfa) (entries : Entries) (t : Transition) :
    Describes d (Tables.row entries t (d.names t.target)).2 t
        (Tables.row entries t (d.names t.target)).1 ∧
      Fills entries [(Tables.row entries t (d.names t.target)).1]
        (Tables.row entries t (d.names t.target)).2 := by
  have hlabel := getElem?_intern entries.labels (membership t.label)
  have hgrown := grown_intern entries.labels (membership t.label)
  unfold Tables.row
  dsimp only
  split
  · rename_i hnone
    exact ⟨⟨hlabel,rfl,.inl ⟨rfl,List.isEmpty_iff.mp hnone⟩⟩,hgrown,.refl _⟩
  · exact ⟨⟨hlabel,rfl,.inr ⟨_,rfl,getElem?_intern _ _⟩⟩,hgrown,grown_intern _ _⟩

theorem describes_nodeRows (d : Dfa) (entries : Entries) (ts : List Transition) :
    List.Forall₂ (Describes d (nodeRows d entries ts).2) ts (nodeRows d entries ts).1 ∧
      Fills entries (nodeRows d entries ts).1 (nodeRows d entries ts).2 := by
  induction ts generalizing entries with
  | nil => exact ⟨.nil,.refl entries⟩
  | cons t ts ih =>
    -- the entries only grow behind a row, so that it goes on describing its transition
    obtain ⟨hfirst,hfills⟩ := describes_row d entries t
    obtain ⟨hrest,hlater⟩ := ih (Tables.row entries t (d.names t.target)).2
    exact ⟨.cons (hfirst.mono hlater) hrest,hfills.trans hlater⟩

theorem describes_allRows (d : Dfa) (entries : Entries) (nodes : List DfaNode) :
    List.Forall₂ (fun n rows =>
        List.Forall₂ (Describes d (allRows d entries nodes).2) n.transitions (rows.getD []))
      nodes (allRows d entries nodes).1 ∧
      Fills entries ((allRows d entries nodes).1.flatMap fun rows => rows.getD [])
        (allRows d entries nodes).2 := by
  induction nodes generalizing entries with
  | nil => exact ⟨.nil,.refl entries⟩
  | cons n nodes ih =>
    obtain ⟨hfirst,hfills⟩ := describes_nodeRows d entries n.transitions
    obtain ⟨hrest,hlater⟩ := ih (nodeRows d entries n.transitions).2
    have hrows : (if n.transitions.isEmpty then none
        else some (nodeRows d entries n.transitions).1).getD [] =
          (nodeRows d entries n.transitions).1 := by
      cases n.transitions <;> rfl
    rw [allRows]
    dsimp only
    rw [List.flatMap_cons,hrows]
    refine ⟨.cons ?_ hrest,hfills.trans hlater⟩
    rw [hrows]
    exact hfirst.imp fun _ _ h => h.mono hlater

theorem describes_ofDfa {id : Nat} {n : DfaNode} (hn : d.node? id = some n) :
    List.Forall₂ (Describes d ⟨(ofDfa d).labels, (ofDfa d).names⟩) n.transitions
      ((ofDfa d).rowsOf id) := by
  obtain ⟨hall,_⟩ := describes_allRows d ⟨[], []⟩ d.nodes
  obtain ⟨hlt,rfl⟩ := List.getElem?_eq_some_iff.mp hn
  have hlt' : id < (ofDfa d).rows.length := hall.length_eq ▸ hlt
  rw [rowsOf,List.getElem?_eq_getElem hlt']
  exact hall.get hlt hlt'

theorem Describes.any_marks (h : Describes d entries t row) (b : UInt8) :
    ((entries.labels[row.label]?).any fun label => marks label b) = t.label.test b := by
  rw [h.label]
  exact marks_membership t.label b

theorem Describes.namesOf_eq {tables : Tables} (h : Describes d entries t row)
    (hnames : tables.names = entries.names) : tables.namesOf row = d.names row.target := by
  rw [namesOf,h.target,hnames]
  rcases h.names with ⟨hnone,hempty⟩ | ⟨i,hi,hname⟩
  · rw [hnone,hempty]
  · rw [hi]
    dsimp only
    rw [hname]
    rfl

/-- The first row that marks the byte is that of the first transition on it. -/
theorem find?_of_describes {rows : List Row} (h : List.Forall₂ (Describes d entries) ts rows)
    (b : UInt8) :
    let found := rows.find? fun row => (entries.labels[row.label]?).any fun label => marks label b
    ts.find? (·.label.test b) = none ∧ found = none ∨
      ∃ t row, ts.find? (·.label.test b) = some t ∧ found = some row ∧ Describes d entries t row := by
  induction h with
  | nil => exact .inl ⟨rfl,rfl⟩
  | @cons t row ts rows hrow _ ih =>
    dsimp only
    rw [List.find?_cons,List.find?_cons,hrow.any_marks]
    cases t.label.test b with
    | true => exact .inr ⟨t,row,rfl,rfl,hrow⟩
    | false => exact ih

theorem length_rows (d : Dfa) : (ofDfa d).rows.length = d.size :=
  (describes_allRows d ⟨[], []⟩ d.nodes).1.length_eq.symm

/-- The tables take a row where the automaton takes its transition, and nowhere else. -/
theorem row?_cases (d : Dfa) (id : Nat) (b : UInt8) :
    d.next? id b = none ∧ (ofDfa d).row? id b = none ∨
      ∃ row, d.next? id b = some row.target ∧ (ofDfa d).row? id b = some row ∧
        (ofDfa d).namesOf row = d.names row.target := by
  cases hn : d.node? id with
  | none =>
    have hrows : (ofDfa d).rows[id]? = none := by
      rw [List.getElem?_eq_none_iff,length_rows]
      exact List.getElem?_eq_none_iff.mp hn
    refine .inl ⟨by rw [Dfa.next?,hn]; rfl,?_⟩
    rw [row?,rowsOf,hrows]
    rfl
  | some n =>
    rw [Dfa.next?_of_node? hn,DfaNode.next?]
    rcases find?_of_describes (describes_ofDfa hn) b with ⟨ht,hrow⟩ | ⟨t,row,ht,hrow,hdescribes⟩
    · exact .inl ⟨by rw [ht]; rfl,hrow⟩
    · exact .inr ⟨row,by rw [ht,hdescribes.target]; rfl,hrow,hdescribes.namesOf_eq rfl⟩

/-- A walk over the tables and a run of the automaton go the same way, and the last row taken has the names
of the node. -/
theorem walk?_cases (d : Dfa) (w : List UInt8) {id : Nat} {last : Option Row}
    (hlast : ∀ row ∈ last, (ofDfa d).namesOf row = d.names id) :
    d.follow? id w = none ∧ (ofDfa d).walk? id last w = none ∨
      ∃ node final, d.follow? id w = some node ∧ (ofDfa d).walk? id last w = some (node, final) ∧
        (last.isSome ∨ w ≠ [] → final.isSome) ∧
          ∀ row ∈ final, (ofDfa d).namesOf row = d.names node := by
  induction w generalizing id last with
  | nil => exact .inr ⟨id,last,rfl,rfl,fun h => h.resolve_right fun hne => hne rfl,hlast⟩
  | cons b w ih =>
    rw [Dfa.follow?,walk?]
    rcases row?_cases d id b with ⟨hnext,hrow⟩ | ⟨row,hnext,hrow,hnames⟩
    · rw [hnext,hrow]
      exact .inl ⟨rfl,rfl⟩
    · rw [hnext,hrow]
      have htaken : ∀ taken ∈ some row, (ofDfa d).namesOf taken = d.names row.target := by
        intro taken htaken
        cases htaken
        exact hnames
      rcases ih htaken with hnone | ⟨node,final,hnode,hfinal,hsome,hlater⟩
      · exact .inl hnone
      · exact .inr ⟨node,final,hnode,hfinal,fun _ => hsome (.inl rfl),hlater⟩

theorem describes_everyRow (d : Dfa) :
    List.Forall₂ (Describes d ⟨(ofDfa d).labels, (ofDfa d).names⟩) (d.nodes.flatMap (·.transitions))
      (ofDfa d).everyRow :=
  List.rel_flatMap (describes_allRows d ⟨[], []⟩ d.nodes).1 fun _ _ h => h

theorem exists_describes_of_mem (hrow : row ∈ (ofDfa d).everyRow) :
    ∃ n ∈ d.nodes, ∃ t ∈ n.transitions,
      Describes d ⟨(ofDfa d).labels, (ofDfa d).names⟩ t row := by
  obtain ⟨t,ht,hdescribes⟩ := exists_mem_of_forall₂ (describes_everyRow d) hrow
  obtain ⟨n,hn,htn⟩ := List.mem_flatMap.mp ht
  exact ⟨n,hn,t,htn,hdescribes⟩

theorem compact_ofDfa (d : Dfa) : (ofDfa d).Compact := by
  obtain ⟨_,hfills⟩ := describes_allRows d ⟨[], []⟩ d.nodes
  constructor
  case start_lt => exact length_rows d ▸ d.start_lt
  case label_lt =>
    intro row hrow
    obtain ⟨_,_,_,_,h⟩ := exists_describes_of_mem hrow
    exact (List.getElem?_eq_some_iff.mp h.label).1
  case target_lt =>
    intro row hrow
    obtain ⟨n,hn,t,ht,h⟩ := exists_describes_of_mem hrow
    rw [length_rows,h.target]
    exact d.target_lt n hn t ht
  case names_lt =>
    intro row hrow i hi
    obtain ⟨_,_,_,_,h⟩ := exists_describes_of_mem hrow
    rcases h.names with ⟨hnone,_⟩ | ⟨j,hj,hname⟩
    · rw [hi] at hnone
      cases hnone
    · rw [hi] at hj
      cases hj
      exact (List.getElem?_eq_some_iff.mp hname).1
  case nodup_labels => exact hfills.labels.nodup .nil
  case nodup_names => exact hfills.names.nodup .nil
  case label_used =>
    intro i hi
    rcases hfills.labels.used i hi with hnone | hplace
    · cases hnone
    · exact List.mem_map.mp hplace
  case names_used =>
    intro i hi
    rcases hfills.names.used i hi with hnone | hplace
    · cases hnone
    · exact List.mem_filterMap.mp hplace

/-- The tables of an automaton, walked alone, go where its runner goes: they stop where it fails, end at
its node otherwise, and the last row gives the names of that node. They hold nothing else and nothing
twice. -/
theorem ofDfa_walk (d : Dfa) :
    (∀ w : List UInt8,
      (Runner.run d (Runner.start d) w).failed = true ∧
          (ofDfa d).walk? (ofDfa d).start none w = none ∨
        ∃ node last, (Runner.run d (Runner.start d) w).failed = false ∧
          (Runner.run d (Runner.start d) w).node = node ∧
          (ofDfa d).walk? (ofDfa d).start none w = some (node, last) ∧
          (w ≠ [] → ∃ row, last = some row ∧ (ofDfa d).namesOf row = d.names node)) ∧
      (ofDfa d).Compact := by
  refine ⟨fun w => ?_,compact_ofDfa d⟩
  have hstart : (ofDfa d).start = d.start := rfl
  rw [Runner.run_eq_feed,hstart]
  have hfailed : (Runner.feed d (Runner.start d) w).failed = (d.follow? d.start w).isNone :=
    Runner.failed_feed
  have hnone : ∀ row ∈ (none : Option Row), (ofDfa d).namesOf row = d.names d.start := by simp
  rcases walk?_cases d w hnone with
    ⟨hnode,hwalk⟩ | ⟨node,final,hnode,hwalk,hsome,hnames⟩
  · rw [hnode] at hfailed
    exact .inl ⟨hfailed,hwalk⟩
  · have hfeed : Runner.feed d (Runner.start d) w = ⟨node, false⟩ := Runner.feed_of_follow? hnode
    rw [hfeed]
    refine .inr ⟨node,final,rfl,rfl,hwalk,fun hne => ?_⟩
    obtain ⟨row,hrow⟩ := Option.isSome_iff_exists.mp (hsome (.inr hne))
    exact ⟨row,hrow,hnames row hrow⟩

end Tables

end LexAutomata.Output
