import LexAutomata.Output.Format
import LexAutomata.Proofs.ByteSet.Ranges
import LexAutomata.Proofs.Text.Escapes

namespace LexAutomata.Output

open Text (decimal Escaped Legible Stops append_inj_of_stops decimal_inj_of_append join_lines_inj
  legible_between_marks legible_decimal newline_notMem_decimal stops_cons)

/-- No name has a line feed. -/
def NamesInLine (nodes : List DfaNode) : Prop := ∀ n ∈ nodes, ∀ name ∈ n.names, '\n' ∉ name.toList

namespace Dot

variable {id : Nat} {m n : DfaNode}

section Escape

/-- The character behind a backslash. -/
def shortEscape (c : Char) : Char := if c = 'n' then '\n' else c

theorem escaped_escapeChar (c : Char) : Escaped shortEscape (fun _ _ => False) c (escapeChar c) := by
  unfold escapeChar
  split
  case isTrue h =>
    rcases h with rfl | rfl
    · exact .short (by decide) rfl
    · exact .short (by decide) rfl
  case isFalse h =>
    rw [not_or] at h
    split
    case isTrue hn => exact .short (by decide) hn.symm
    case isFalse hn => exact .plain h.2 h.1

theorem escape_inj {s t : String} {u v : List Char}
    (h : (escape s).toList ++ '"' :: u = (escape t).toList ++ '"' :: v) : s = t ∧ u = v := by
  have hwrite : ∀ r, ("\"" ++ escape r ++ "\"").toList = '"' :: (r.toList.flatMap escapeChar ++ ['"']) := by
    intro r
    simp [escape]
  have hlegible := legible_between_marks escaped_escapeChar
    (fun _ _ _ _ _ _ hname => False.elim hname) hwrite s
  exact hlegible t u v trivial trivial (by simpa using h)

theorem newline_notMem_escape (s : String) : '\n' ∉ (escape s).toList := by
  have hchar : ∀ c, '\n' ∉ escapeChar c := by
    intro c
    unfold escapeChar
    split_ifs with hmark hn
    · rcases hmark with rfl | rfl <;> decide
    · decide
    · simpa using Ne.symm hn
  simp [escape,hchar]

end Escape

section Lines

/-- The names of a node are the further lines of its label. -/
theorem nodeLabel_inj (hm : ∀ name ∈ m.names, '\n' ∉ name.toList)
    (hn : ∀ name ∈ n.names, '\n' ∉ name.toList) (h : nodeLabel id m = nodeLabel id n) :
    m.names = n.names := by
  have hlines : ∀ k : DfaNode,
      String.join ((decimal id :: k.names).map (· ++ "\n")) = nodeLabel id k ++ "\n" := by
    intro k
    have hturn : ∀ names : List String, "\n" ++ String.join (names.map (· ++ "\n")) =
        String.join (names.map ("\n" ++ ·)) ++ "\n" := by
      intro names
      induction names with
      | nil => simp
      | cons name names ih => simp [String.append_assoc,ih]
    simp [nodeLabel,String.append_assoc,hturn]
  have hall : decimal id :: m.names = decimal id :: n.names := by
    apply join_lines_inj
    · exact List.forall_mem_cons.mpr ⟨newline_notMem_decimal id,hm⟩
    · exact List.forall_mem_cons.mpr ⟨newline_notMem_decimal id,hn⟩
    · rw [hlines,h,hlines]
  exact (List.cons.inj hall).2

theorem nodeLine_inj (hm : ∀ name ∈ m.names, '\n' ∉ name.toList)
    (hn : ∀ name ∈ n.names, '\n' ∉ name.toList) (h : nodeLine id m = nodeLine id n) :
    m.names = n.names := by
  have hmark : "\" shape=".toList = '"' :: " shape=".toList := by decide
  have hchars := congrArg String.toList h
  simp only [nodeLine,String.toList_append,List.append_assoc,List.append_cancel_left_eq,hmark,
    List.cons_append] at hchars
  exact nodeLabel_inj hm hn (escape_inj hchars).1

theorem edgeLine_injective : Function.Injective edgeLine := by
  intro e f h
  have hmark : "\"];".toList = '"' :: "];".toList := by decide
  have hchars := congrArg String.toList h
  simp only [edgeLine,String.toList_append,List.append_assoc,List.append_cancel_left_eq,hmark] at hchars
  have harrow : ∀ s, Stops Char.isDigit (" -> ".toList ++ s) := fun s => stops_cons.mpr (by decide)
  have hbracket : ∀ s, Stops Char.isDigit (" [label=\"".toList ++ s) := fun s =>
    stops_cons.mpr (by decide)
  obtain ⟨hsource,hchars⟩ := legible_decimal e.1 f.1 _ _ (harrow _) (harrow _) hchars
  obtain ⟨htarget,hchars⟩ := legible_decimal e.2.2 f.2.2 _ _ (hbracket _) (hbracket _)
    (List.append_cancel_left hchars)
  have hlabel := (escape_inj (List.append_cancel_left hchars)).1
  exact Prod.ext hsource (Prod.ext (ByteSet.display_injective hlabel) htarget)

theorem newline_notMem_lines (d : Dfa) : ∀ l ∈ lines d, '\n' ∉ l.toList := by
  have hnode : ∀ id n, '\n' ∉ (nodeLine id n).toList := by
    intro id n
    have hshape : '\n' ∉ (if n.isFinal then "octagon" else "ellipse").toList := by
      split <;> decide
    simp [nodeLine,newline_notMem_decimal,newline_notMem_escape,hshape]
  have hedge : ∀ e, '\n' ∉ (edgeLine e).toList := by
    intro e
    simp [edgeLine,newline_notMem_decimal,newline_notMem_escape]
  intro l hl
  simp only [lines,List.mem_append,List.mem_cons,List.not_mem_nil,or_false,List.mem_map] at hl
  rcases hl with ((rfl | ⟨k,_,rfl⟩) | ⟨e,_,rfl⟩) | rfl | rfl | rfl
  · decide
  · exact hnode _ _
  · exact hedge e
  · simp [newline_notMem_decimal]
  · simp [newline_notMem_decimal]
  · decide

end Lines

section Nodes

/-- The transitions of a node under its number, as they are listed. -/
def numbered (n : DfaNode × Nat) : List (Nat × ByteSet × Nat) :=
  n.1.transitions.map fun t => (n.2, t.label, t.target)

/-- Behind the transitions of node `k`, all those listed are of later nodes. -/
theorem numbered_inj {k : Nat} {ms ns : List DfaNode}
    (h : ((m :: ms).zipIdx k).flatMap numbered = ((n :: ns).zipIdx k).flatMap numbered) :
    m.transitions = n.transitions ∧
      (ms.zipIdx (k + 1)).flatMap numbered = (ns.zipIdx (k + 1)).flatMap numbered := by
  have hhere : ∀ j : DfaNode, ∀ e ∈ numbered (j, k), decide (e.1 = k) = true := by
    intro j e he
    obtain ⟨t,_,rfl⟩ := List.mem_map.mp he
    exact decide_eq_true rfl
  have hlater : ∀ js : List DfaNode,
      Stops (fun e => decide (e.1 = k)) ((js.zipIdx (k + 1)).flatMap numbered) := by
    intro js e he
    obtain ⟨j,hj,hej⟩ := List.mem_flatMap.mp (List.mem_of_mem_head? he)
    obtain ⟨t,_,rfl⟩ := List.mem_map.mp hej
    have hle := List.le_snd_of_mem_zipIdx hj
    exact decide_eq_false (by omega)
  simp only [List.zipIdx_cons,List.flatMap_cons] at h
  obtain ⟨hfirst,hrest⟩ := append_inj_of_stops (hhere m) (hhere n) (hlater ms) (hlater ns) h
  refine ⟨List.map_injective_iff.mpr ?_ hfirst,hrest⟩
  rintro ⟨s,i⟩ ⟨t,j⟩ hst
  simpa using hst

/-- Node by node, the lines tell the names and the listed transitions tell the transitions. -/
theorem nodes_inj {ms ns : List DfaNode} (hms : NamesInLine ms) (hns : NamesInLine ns) {k : Nat}
    (hlines : (ms.zipIdx k).map (fun n => nodeLine n.2 n.1) = (ns.zipIdx k).map fun n => nodeLine n.2 n.1)
    (hlisted : (ms.zipIdx k).flatMap numbered = (ns.zipIdx k).flatMap numbered) : ms = ns := by
  induction ms generalizing ns k with
  | nil =>
    cases ns with
    | nil => rfl
    | cons n ns => simp at hlines
  | cons m ms ih =>
    cases ns with
    | nil => simp at hlines
    | cons n ns =>
      rw [NamesInLine,List.forall_mem_cons] at hms hns
      simp only [List.zipIdx_cons,List.map_cons,List.cons.injEq] at hlines
      obtain ⟨htransitions,hlater⟩ := numbered_inj hlisted
      have hnames := nodeLine_inj hms.1 hns.1 hlines.1
      have hnode : m = n := by
        calc
          m = ⟨m.transitions,m.names⟩ := rfl
          _ = ⟨n.transitions,n.names⟩ := by rw [htransitions,hnames]
      rw [hnode,ih hms.2 hns.2 hlines.2 hlater]

end Nodes

variable {c d : Dfa}

theorem lines_inj (h : lines c = lines d) :
    c.start = d.start ∧
      c.nodes.zipIdx.map (fun n => nodeLine n.2 n.1) = d.nodes.zipIdx.map (fun n => nodeLine n.2 n.1) ∧
      c.transitions = d.transitions := by
  obtain ⟨hbody,hlast⟩ := List.append_inj' h rfl
  simp only [List.cons.injEq,and_true] at hlast
  obtain ⟨hlabel,harrow⟩ := hlast
  have hsize : c.size = d.size := decimal_inj_of_append hlabel
  have hstart : c.start = d.start := by
    rw [hsize] at harrow
    exact decimal_inj_of_append harrow
  have hlength : c.nodes.length = d.nodes.length := hsize
  obtain ⟨hnodes,hedges⟩ := List.append_inj hbody (by simp [hlength])
  exact ⟨hstart,List.append_cancel_left hnodes,List.map_injective_iff.mpr edgeLine_injective hedges⟩

end Dot

/-- The graphs of two automata are the same only if the automata are, if no name has a line feed; and so are
the texts of two byte sets. -/
theorem renderDot_lossless :
    (∀ c d : Dfa, NamesInLine c.nodes → NamesInLine d.nodes →
      (render c .dotGraph = render d .dotGraph ↔ c = d)) ∧
      ∀ s t : ByteSet, s.display = t.display ↔ s = t := by
  refine ⟨fun c d hc hd => ⟨fun h => ?_,fun h => by rw [h]⟩,fun s t => ByteSet.display_injective.eq_iff⟩
  have hlines : Dot.lines c = Dot.lines d :=
    join_lines_inj (Dot.newline_notMem_lines c) (Dot.newline_notMem_lines d) h
  obtain ⟨hstart,hnodes,htransitions⟩ := Dot.lines_inj hlines
  exact Dfa.ext (Dot.nodes_inj hc hd hnodes htransitions) hstart

/-- A backslash before an `n` within a name is not taken for the end of a line. -/
theorem renderDot_lossless_of_backslash :
    ∃ c d : Dfa, c.nodes = [⟨[⟨.singleton 46, 0⟩], ["a\\nb"]⟩] ∧
      d.nodes = [⟨[⟨.singleton 46, 0⟩], ["a", "b"]⟩] ∧ NamesInLine c.nodes ∧ NamesInLine d.nodes ∧
        render c .dotGraph ≠ render d .dotGraph := by
  let c : Dfa := ⟨[⟨[⟨.singleton 46, 0⟩], ["a\\nb"]⟩],0,by decide,by decide⟩
  let d : Dfa := ⟨[⟨[⟨.singleton 46, 0⟩], ["a", "b"]⟩],0,by decide,by decide⟩
  have hc : NamesInLine c.nodes := by
    unfold NamesInLine
    decide
  have hd : NamesInLine d.nodes := by
    unfold NamesInLine
    decide
  have hne : c ≠ d := by decide
  exact ⟨c,d,rfl,rfl,hc,hd,fun h => hne ((renderDot_lossless.1 c d hc hd).mp h)⟩

end LexAutomata.Output
