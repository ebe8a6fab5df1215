import LexAutomata.Output.Format
import LexAutomata.Proofs.Output.Json
import LexAutomata.Proofs.Output.Tables

namespace LexAutomata.Output

open Text (decimal quoted Legible Stops append_inj_of_stops decimal_inj_of_append decimal_injective
  intercalate_map_cons isDigit_of_mem_decimal join_lines_inj legible_decimal legible_quoted newline_notMem_decimal
  newline_notMem_quoted stops_cons)

theorem Tables.exists_membership {d : Dfa} {l : String} (hl : l ∈ (Tables.ofDfa d).labels) :
    ∃ s, l = membership s := by
  obtain ⟨i,hi,rfl⟩ := List.mem_iff_getElem.mp hl
  obtain ⟨row,hrow,rfl⟩ := (Tables.compact_ofDfa d).label_used i hi
  obtain ⟨_,_,t,_,hdescribes⟩ := Tables.exists_describes_of_mem hrow
  exact ⟨t.label,(List.getElem_eq_iff hi).mpr hdescribes.label⟩

namespace Source

section Entries

theorem minus_notMem_decimal (n : Nat) : '-' ∉ (decimal n).toList := fun h =>
  absurd (isDigit_of_mem_decimal h) (by decide)

theorem rowLine_injective : Function.Injective rowLine := by
  rintro ⟨label,target,names⟩ ⟨label',target',names'⟩ h
  have hchars := congrArg String.toList h
  simp only [rowLine,String.toList_append,List.append_assoc,List.append_cancel_left_eq] at hchars
  have hcomma : ∀ s, Stops Char.isDigit (", ".toList ++ s) := fun s => stops_cons.mpr (by decide)
  obtain ⟨rfl,hbehind⟩ := legible_decimal label label' _ _ (hcomma _) (hcomma _) hchars
  obtain ⟨rfl,hlast⟩ := legible_decimal target target' _ _ (hcomma _) (hcomma _)
    (List.append_cancel_left hbehind)
  have hnames := List.append_cancel_right (List.append_cancel_left hlast)
  have hminus : ∀ n, "-1".toList ≠ (decimal n).toList := fun n hn =>
    minus_notMem_decimal n (hn ▸ by decide)
  cases names with
  | none =>
    cases names' with
    | none => rfl
    | some j => exact absurd hnames (hminus j)
  | some i =>
    cases names' with
    | none => exact absurd hnames.symm (hminus i)
    | some j => rw [decimal_injective (String.toList_inj.mp hnames)]

theorem rowLine_ne_closing (r : Row) : rowLine r ≠ "    ])," := by
  intro h
  have hchars := congrArg String.toList h
  simp [rowLine] at hchars

theorem legible_nodeLines (rows : Option (List Row)) : Legible (fun _ => True) nodeLines rows := by
  have hrow : ∀ rs : List Row, ∀ l ∈ rs.map rowLine, decide (l ≠ "    ]),") = true := by
    intro rs l hl
    obtain ⟨r,_,rfl⟩ := List.mem_map.mp hl
    exact decide_eq_true (rowLine_ne_closing r)
  have hclosing : ∀ s, Stops (fun l => decide (l ≠ "    ]),")) ("    ])," :: s) := fun s =>
    stops_cons.mpr (by decide)
  intro rows' s t _ _ heq
  cases rows with
  | none =>
    cases rows' with
    | none => exact ⟨rfl,List.append_cancel_left heq⟩
    | some rs' => simp [nodeLines] at heq
  | some rs =>
    cases rows' with
    | none => simp [nodeLines] at heq
    | some rs' =>
      simp only [nodeLines,List.cons_append,List.append_assoc,List.nil_append,List.cons.injEq,
        true_and] at heq
      obtain ⟨hlines,hend⟩ := append_inj_of_stops (hrow rs) (hrow rs') (hclosing s) (hclosing t) heq
      exact ⟨congrArg some (List.map_injective_iff.mpr rowLine_injective hlines),
        (List.cons.inj hend).2⟩

theorem toList_namesLine (names : List String) :
    (namesLine names).toList = "    &[".toList ++
      ([',', ' '].intercalate (names.map fun name => (quoted name).toList) ++ "],".toList) := by
  have hcomma : ", ".toList = [',', ' '] := rfl
  simp only [namesLine,String.toList_append,String.toList_intercalate,List.map_map,hcomma,
    List.append_assoc,Function.comp_def]

/-- A bracket within a name does not end the list. -/
theorem namesLine_injective : Function.Injective namesLine := by
  intro names names' h
  have hitems : Legible (fun s => s.head? = some ']')
      (fun names => [',', ' '].intercalate (names.map fun name => (quoted name).toList)) names := by
    apply Legible.intercalate fun name _ => legible_quoted name
    case hends => exact fun _ _ => trivial
    case hsep => exact fun _ => trivial
    case hmore => simp
    case hitem => simp [Text.toList_quoted]
  have hchars := congrArg String.toList h
  rw [toList_namesLine,toList_namesLine] at hchars
  exact (hitems names' _ _ rfl rfl (List.append_cancel_left hchars)).1

end Entries

section Lines

/-- The counts in the headers say where each table ends; the rows of the last one end by themselves. -/
theorem lines_injective : Function.Injective lines := by
  intro t u h
  have hlabel : Function.Injective fun l : String => "    \"" ++ l ++ "\"," := by
    intro l m hlm
    exact String.toList_inj.mp (by simpa using congrArg String.toList hlm)
  have hrows : Legible (fun s => s = []) (List.flatMap nodeLines) t.rows := by
    apply Legible.flatMap fun rows _ => legible_nodeLines rows
    case hends => exact fun _ _ => trivial
    case hnext => exact fun _ _ => trivial
    case hstop =>
      intro rows s
      cases rows <;> simp [nodeLines]
  simp only [lines,List.cons_append,List.append_assoc,List.nil_append,List.cons.injEq,true_and] at h
  obtain ⟨hstart,hlabelCount,hlabelTable⟩ := h
  have hlabelLength := decimal_inj_of_append hlabelCount
  obtain ⟨hlabels,hbehind⟩ := List.append_inj hlabelTable (by simp [hlabelLength])
  simp only [List.cons.injEq,true_and] at hbehind
  obtain ⟨hnameCount,hnameTable⟩ := hbehind
  have hnameLength := decimal_inj_of_append hnameCount
  obtain ⟨hnames,hlast⟩ := List.append_inj hnameTable (by simp [hnameLength])
  have hrowTable := List.append_cancel_right (List.cons.inj (List.cons.inj (List.cons.inj hlast).2).2).2
  have hnodes : t.rows = u.rows := hrows.eq_of_code_eq rfl hrowTable
  calc
    t = ⟨t.start,t.labels,t.names,t.rows⟩ := rfl
    _ = ⟨u.start,u.labels,u.names,u.rows⟩ := by
      rw [decimal_inj_of_append hstart,List.map_injective_iff.mpr hlabel hlabels,
        List.map_injective_iff.mpr namesLine_injective hnames,hnodes]

theorem newline_notMem_membership (s : ByteSet) : '\n' ∉ (membership s).toList := by
  intro h
  obtain ⟨b,_,hb⟩ := List.mem_map.mp (String.toList_ofList ▸ h)
  split at hb <;> exact absurd hb (by decide)

theorem newline_notMem_lines (d : Dfa) : ∀ l ∈ lines (Tables.ofDfa d), '\n' ∉ l.toList := by
  have hlabel : ∀ l ∈ (Tables.ofDfa d).labels, '\n' ∉ ("    \"" ++ l ++ "\",").toList := by
    intro l hl
    obtain ⟨s,rfl⟩ := Tables.exists_membership hl
    simp [newline_notMem_membership]
  have hnames : ∀ names, '\n' ∉ (namesLine names).toList := by
    intro names
    rw [toList_namesLine]
    cases names with
    | nil => simp
    | cons name names =>
      rw [intercalate_map_cons]
      simp [newline_notMem_quoted]
  have hnode : ∀ rows, ∀ l ∈ nodeLines rows, '\n' ∉ l.toList := by
    have hrow : ∀ r, '\n' ∉ (rowLine r).toList := by
      rintro ⟨label,target,_ | i⟩ <;> simp [rowLine,newline_notMem_decimal]
    intro rows l hl
    cases rows with
    | none =>
      rw [List.mem_singleton.mp hl]
      decide
    | some rs =>
      simp only [nodeLines,List.mem_cons,List.mem_append,List.mem_map,List.not_mem_nil,or_false] at hl
      rcases hl with rfl | ⟨r,_,rfl⟩ | rfl
      · decide
      · exact hrow r
      · decide
  simp only [lines,List.forall_mem_append,List.forall_mem_flatMap,List.forall_mem_map]
  refine ⟨⟨⟨⟨⟨⟨?_,hlabel⟩,?_⟩,fun names _ => hnames names⟩,?_⟩,fun rows _ => hnode rows⟩,?_⟩
  all_goals simp [newline_notMem_decimal]

end Lines

end Source

theorem renderSource_eq_iff (c d : Dfa) :
    renderSource c = renderSource d ↔ Tables.ofDfa c = Tables.ofDfa d := by
  constructor
  · intro h
    exact Source.lines_injective
      (join_lines_inj (Source.newline_notMem_lines c) (Source.newline_notMem_lines d) h)
  · intro h
    rw [renderSource,h,renderSource]

/-- The source text and the document both tell the tables, and so each tells the other. -/
theorem render_tables_lossless (c d : Dfa) :
    (render c .sourceTables = render d .sourceTables ↔ Tables.ofDfa c = Tables.ofDfa d) ∧
      (render c .sourceTables = render d .sourceTables ↔
        render c .jsonTables = render d .jsonTables) :=
  ⟨renderSource_eq_iff c d,(renderSource_eq_iff c d).trans (renderJson_eq_iff c d).symm⟩

end LexAutomata.Output
