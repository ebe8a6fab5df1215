import LexAutomata.Proofs.RuleFile.Bytes

namespace LexAutomata.RuleFile

section Columns

theorem utf8Length_append (cs ds : List Char) :
    utf8Length (cs ++ ds) = utf8Length cs + utf8Length ds := by
  induction cs with
  | nil => simp [utf8Length]
  | cons c cs ih => simp [utf8Length,ih,Nat.add_assoc]

theorem columnAfter_eq (cs : List Char) : columnAfter cs = 1 + utf8Length cs := by
  rw [columnAfter]
  induction cs with
  | nil => simp [utf8Length]
  | cons c cs ih =>
    simp [utf8Length, String.ofList_cons]
    omega

end Columns

theorem takeWhile_append_eq {p : Char → Bool} {xs rest : List Char} (hxs : ∀ c ∈ xs, p c = true)
    (hrest : ∀ c ∈ rest.head?, p c = false) : (xs ++ rest).takeWhile p = xs := by
  rw [List.takeWhile_append_of_pos hxs]
  cases rest with
  | nil => simp
  | cons c rest => simp [hrest c rfl]

namespace Cursor

variable {p : Char → Bool} {xs rest : List Char} {n k : Nat}

theorem skipWhile_append (hxs : ∀ c ∈ xs, p c = true) :
    skipWhile ⟨xs ++ rest, n, k⟩ p = skipWhile ⟨rest, n, k + utf8Length xs⟩ p := by
  simp only [skipWhile,List.dropWhile_append_of_pos hxs,List.takeWhile_append_of_pos hxs,
    utf8Length_append,Nat.add_assoc]

theorem skipWhile_of_head (hrest : ∀ c ∈ rest.head?, p c = false) :
    skipWhile ⟨rest, n, k⟩ p = ⟨rest, n, k⟩ := by
  cases rest with
  | nil => rfl
  | cons c rest => simp [skipWhile,hrest c rfl,utf8Length]

/-- The definition without the equation that its termination needs. -/
theorem skipSeparators_eq (c : Cursor) :
    c.skipSeparators =
      match (c.skipWhile isBlank).rest with
      | [] => c.skipWhile isBlank
      | b :: _ =>
        if b = '#' then ((c.skipWhile isBlank).skipWhile isInLine).skipSeparators
        else if isInLine b then c.skipWhile isBlank
        else (c.skipWhile isBlank).skipBreak.skipSeparators := by
  rw [skipSeparators]
  split
  · rename_i h
    rw [h]
  · rename_i h
    rw [h]

theorem skipSeparators_blanks (hxs : ∀ c ∈ xs, Blank c) :
    skipSeparators ⟨xs ++ rest, n, k⟩ = skipSeparators ⟨rest, n, k + utf8Length xs⟩ := by
  rw [skipSeparators_eq,skipWhile_append fun c hc => isBlank_iff.mpr (hxs c hc),← skipSeparators_eq]

theorem skipSeparators_nil : skipSeparators ⟨[], n, k⟩ = ⟨[], n, k⟩ := by
  rw [skipSeparators_eq]
  rfl

theorem skipSeparators_break (hrest : ∀ c ∈ rest.head?, BreakChar c) :
    skipSeparators ⟨rest, n, k⟩ = skipSeparators (skipBreak ⟨rest, n, k⟩) := by
  cases rest with
  | nil => rfl
  | cons c rest =>
    have hbreak : BreakChar c := hrest c rfl
    have hblank := isBlank_eq_false_iff.mpr hbreak.not_blank
    have hcomment : c ≠ '#' := by rcases hbreak with rfl | rfl <;> decide
    rw [skipSeparators_eq,skipWhile_of_head fun d hd => Option.some.inj hd ▸ hblank]
    simp only [hcomment,isInLine_eq_false_iff.mpr hbreak,if_false,Bool.false_eq_true]

theorem skipSeparators_comment (hxs : ∀ c ∈ xs, ¬ BreakChar c) (hcomment : xs.head? = some '#')
    (hrest : ∀ c ∈ rest.head?, BreakChar c) :
    skipSeparators ⟨xs ++ rest, n, k⟩ = skipSeparators (skipBreak ⟨rest, n, k + utf8Length xs⟩) := by
  have hline : skipWhile ⟨xs ++ rest, n, k⟩ isInLine = ⟨rest, n, k + utf8Length xs⟩ := by
    rw [skipWhile_append fun c hc => isInLine_iff.mpr (hxs c hc)]
    exact skipWhile_of_head fun c hc => isInLine_eq_false_iff.mpr (hrest c hc)
  rw [← skipSeparators_break hrest,← hline]
  obtain ⟨xs,rfl⟩ := List.head?_eq_some_iff.mp hcomment
  rw [skipSeparators_eq,skipWhile_of_head fun d hd => Option.some.inj hd ▸ rfl]
  rfl

theorem skipSeparators_text {c : Char} (hblank : ¬ Blank c) (hcomment : c ≠ '#')
    (hbreak : ¬ BreakChar c) : skipSeparators ⟨c :: rest, n, k⟩ = ⟨c :: rest, n, k⟩ := by
  have hstop := isBlank_eq_false_iff.mpr hblank
  rw [skipSeparators_eq,skipWhile_of_head fun d hd => Option.some.inj hd ▸ hstop]
  simp only [hcomment,isInLine_iff.mpr hbreak,if_false,if_true]

end Cursor

/-- Where the reader stands between two steps: at the start of the first of the lines, which has the
number, or at the end of the text with no line left. -/
inductive Stands (number : Nat) : Cursor → List Line → Prop where
  | line (cs : List Char) : Stands number ⟨cs, number, 1⟩ (lines cs)
  | ended (n k : Nat) : Stands number ⟨[], n, k⟩ []

theorem lines_ne_nil (cs : List Char) : lines cs ≠ [] := by
  fun_induction lines cs with
  | case1 => simp
  | case2 => simp
  | case3 => simp
  | case4 => simp
  | case5 c cs _ _ _ ih => simpa using ih

theorem lines_eq_cons {cs : List Char} {l : Line} {ls : List Line} (h : lines cs = l :: ls) :
    (∀ c ∈ l.text, ¬ BreakChar c) ∧
      ∃ behind, cs = l.text ++ behind ∧ behind.head? = l.ending.head? ∧
        ∀ n k, Stands (n + 1) (Cursor.skipBreak ⟨behind, n, k⟩) ls := by
  fun_induction lines cs generalizing l ls with
  | case1 =>
    cases h
    exact ⟨by simp,[],rfl,rfl,fun n k => .ended n k⟩
  | case2 cs =>
    cases h
    exact ⟨by simp,_,rfl,rfl,fun n k => .line cs⟩
  | case3 cs =>
    cases h
    exact ⟨by simp,_,rfl,rfl,fun n k => .line cs⟩
  | case4 cs hfeed =>
    cases h
    have hbreak : ∀ n k, Cursor.skipBreak ⟨'\r' :: cs, n, k⟩ = ⟨cs, n + 1, 1⟩ := by
      intro n k
      simp only [Cursor.skipBreak]
    refine ⟨by simp,_,rfl,rfl,fun n k => ?_⟩
    rw [hbreak]
    exact .line cs
  | case5 c cs hfeed _ hreturn ih =>
    have hc : ¬ BreakChar c := by
      rintro (rfl | rfl)
      · exact hfeed rfl
      · exact hreturn rfl
    obtain ⟨m,ms,hm⟩ := List.exists_cons_of_ne_nil (lines_ne_nil cs)
    obtain ⟨htext,behind,rfl,hhead,hnext⟩ := ih hm
    rw [hm] at h
    cases h
    refine ⟨?_,behind,rfl,hhead,hnext⟩
    intro d hd
    rcases List.mem_cons.mp hd with rfl | hd
    · exact hc
    · exact htext d hd

section Heads

variable {blanks name gap tail : List Char} {n : Nat}

theorem columnAfter_append (cs ds : List Char) :
    columnAfter (cs ++ ds) = columnAfter cs + utf8Length ds := by
  rw [columnAfter_eq,columnAfter_eq,utf8Length_append,Nat.add_assoc]

namespace Head

/-- The name is read to its end, and the blanks behind it are passed. -/
theorem spans (h : Head blanks name gap) (n : Nat)
    (htail : ∀ c ∈ tail.head?, ¬ Blank c ∧ (gap = [] → ¬ NameChar c)) :
    (name ++ (gap ++ tail)).takeWhile isNameChar = name ∧
      (Cursor.skipWhile ⟨name ++ (gap ++ tail), n, columnAfter blanks⟩ isNameChar).skipWhile isBlank =
        ⟨tail, n, columnAfter (blanks ++ name ++ gap)⟩ := by
  have hnamed : ∀ c ∈ name, isNameChar c = true := fun c hc => isNameChar_iff.mpr (h.named c hc)
  have hgap : ∀ c ∈ gap, isBlank c = true := fun c hc => isBlank_iff.mpr (h.blank_behind c hc)
  have hstop : ∀ c ∈ (gap ++ tail).head?, isNameChar c = false := by
    intro c hc
    rw [isNameChar_eq_false_iff]
    cases gap with
    | nil => exact (htail c hc).2 rfl
    | cons d gap =>
      cases hc
      intro hname
      exact hname.not_blank (h.blank_behind _ List.mem_cons_self)
  refine ⟨takeWhile_append_eq hnamed hstop,?_⟩
  rw [Cursor.skipWhile_append hnamed,Cursor.skipWhile_of_head hstop,Cursor.skipWhile_append hgap,
    columnAfter_append,columnAfter_append]
  exact Cursor.skipWhile_of_head fun c hc => isBlank_eq_false_iff.mpr (htail c hc).1

theorem readRule_of_ne (h : Head blanks name gap) (n : Nat)
    (htail : ∀ c ∈ tail.head?, ¬ Blank c ∧ (gap = [] → ¬ NameChar c)) (hcolon : tail.head? ≠ some ':') :
    Cursor.readRule ⟨name ++ (gap ++ tail), n, columnAfter blanks⟩ =
      .error (Cursor.unexpected ⟨tail, n, columnAfter (blanks ++ name ++ gap)⟩
        RuleError.expectedDelimiter) := by
  obtain ⟨hname,hdelimiter⟩ := h.spans n htail
  have hempty : name.isEmpty = false := by simpa using h.name_ne_nil
  simp only [Cursor.readRule,hname,hdelimiter,hempty,if_false,Bool.false_eq_true]
  cases tail with
  | nil => rfl
  | cons c tail =>
    split
    · rename_i hc
      exact absurd (congrArg List.head? hc) hcolon
    · rfl

theorem readRule_colon (h : Head blanks name gap) (n : Nat) {regex behind : List Char}
    (hregex : ∀ c ∈ regex, ¬ BreakChar c) (hbehind : ∀ c ∈ behind.head?, BreakChar c) :
    Cursor.readRule ⟨name ++ (gap ++ ':' :: (regex ++ behind)), n, columnAfter blanks⟩ =
      if regex = [] then
        .error (.missingRegex n (columnAfter (blanks ++ name ++ gap ++ [':'])))
      else
        .ok (⟨String.ofList name, String.ofList regex, n, columnAfter (blanks ++ name ++ gap ++ [':'])⟩,
          Cursor.skipBreak
            ⟨behind, n, columnAfter (blanks ++ name ++ gap ++ ':' :: regex)⟩) := by
  have hcolon : ∀ c ∈ (':' :: (regex ++ behind)).head?, ¬ Blank c ∧ (gap = [] → ¬ NameChar c) := by
    intro c hc
    cases hc
    rw [← isBlank_eq_false_iff,← isNameChar_eq_false_iff]
    exact ⟨rfl,fun _ => rfl⟩
  obtain ⟨hname,hdelimiter⟩ := h.spans n hcolon
  have hempty : name.isEmpty = false := by simpa using h.name_ne_nil
  have hinLine : ∀ c ∈ regex, isInLine c = true := fun c hc => isInLine_iff.mpr (hregex c hc)
  have hstop : ∀ c ∈ behind.head?, isInLine c = false := fun c hc =>
    isInLine_eq_false_iff.mpr (hbehind c hc)
  simp only [Cursor.readRule,hname,hdelimiter,hempty,if_false,Bool.false_eq_true,
    takeWhile_append_eq hinLine hstop,List.isEmpty_iff]
  rw [Cursor.skipWhile_append hinLine,Cursor.skipWhile_of_head hstop,
    ← List.singleton_append (l := regex),← List.append_assoc,columnAfter_append _ regex,
    columnAfter_append _ [':']]
  rfl

theorem next?_eq (h : Head blanks name gap) (tail : List Char) (n : Nat) :
    Reader.next? ⟨⟨blanks ++ name ++ gap ++ tail, n, 1⟩, false⟩ =
      match Cursor.readRule ⟨name ++ (gap ++ tail), n, columnAfter blanks⟩ with
      | .error e => some (.error e, ⟨⟨name ++ (gap ++ tail), n, columnAfter blanks⟩, true⟩)
      | .ok (r, after) => some (.ok r, ⟨after, false⟩) := by
  obtain ⟨c,cs,rfl⟩ := List.exists_cons_of_ne_nil h.name_ne_nil
  have hc : NameChar c := h.named c List.mem_cons_self
  have hcomment : c ≠ '#' := by
    rintro rfl
    exact absurd (isNameChar_iff.mpr hc) (by decide)
  have hstart : Cursor.skipSeparators ⟨blanks ++ (c :: cs) ++ gap ++ tail, n, 1⟩ =
      ⟨c :: cs ++ (gap ++ tail), n, columnAfter blanks⟩ := by
    rw [List.append_assoc,List.append_assoc,Cursor.skipSeparators_blanks h.blank_before,
      ← columnAfter_eq]
    exact Cursor.skipSeparators_text hc.not_blank hcomment fun hbreak => hbreak.not_nameChar hc
  simp only [Reader.next?,hstart,Bool.false_eq_true,if_false]
  rfl

end Head

end Heads

namespace Line.Reads

variable {n : Nat} {l : Line} {behind : List Char}

theorem skipSeparators_eq (h : l.Reads n none) (htext : ∀ c ∈ l.text, ¬ BreakChar c)
    (hbehind : ∀ c ∈ behind.head?, BreakChar c) :
    ∃ k, Cursor.skipSeparators ⟨l.text ++ behind, n, 1⟩ =
      Cursor.skipSeparators (Cursor.skipBreak ⟨behind, n, k⟩) := by
  cases h with
  | @skipped blanks rest ending hblanks hrest =>
    dsimp only at htext ⊢
    rw [List.append_assoc,Cursor.skipSeparators_blanks hblanks]
    rcases hrest with rfl | hcomment
    · exact ⟨_,Cursor.skipSeparators_break hbehind⟩
    · have hrest : ∀ c ∈ rest, ¬ BreakChar c := fun c hc => htext c (List.mem_append_right _ hc)
      exact ⟨_,Cursor.skipSeparators_comment hrest hcomment hbehind⟩

theorem next?_rule {r : Rule} (h : l.Reads n (some (.ok r))) (htext : ∀ c ∈ l.text, ¬ BreakChar c)
    (hbehind : ∀ c ∈ behind.head?, BreakChar c) :
    ∃ k, Reader.next? ⟨⟨l.text ++ behind, n, 1⟩, false⟩ =
      some (.ok r, ⟨Cursor.skipBreak ⟨behind, n, k⟩, false⟩) := by
  cases h with
  | @rule blanks name gap regex ending hhead hregex =>
    dsimp only at htext ⊢
    have hinLine : ∀ c ∈ regex, ¬ BreakChar c := fun c hc => htext c (by simp [hc])
    rw [List.append_assoc,List.cons_append,hhead.next?_eq,hhead.readRule_colon n hinLine hbehind,
      if_neg hregex]
    exact ⟨_,rfl⟩

theorem next?_error {e : RuleError} (h : l.Reads n (some (.error e)))
    (htext : ∀ c ∈ l.text, ¬ BreakChar c) (hbehind : ∀ c ∈ behind.head?, BreakChar c)
    (hhead : behind.head? = l.ending.head?) :
    ∃ c, Reader.next? ⟨⟨l.text ++ behind, n, 1⟩, false⟩ = some (.error e, ⟨c, true⟩) := by
  cases h with
  | @noName blanks rest ending found hblanks hblank hcomment hname =>
    dsimp only at htext ⊢
    have hfound : ¬ BreakChar found := htext found (by simp)
    have hstart : Cursor.skipSeparators ⟨blanks ++ found :: rest ++ behind, n, 1⟩ =
        ⟨found :: (rest ++ behind), n, columnAfter blanks⟩ := by
      rw [List.append_assoc,Cursor.skipSeparators_blanks hblanks,← columnAfter_eq]
      exact Cursor.skipSeparators_text hblank hcomment hfound
    have hread : Cursor.readRule ⟨found :: (rest ++ behind), n, columnAfter blanks⟩ =
        .error (.unexpectedChar n (columnAfter blanks) found RuleError.expectedName) := by
      simp [Cursor.readRule,isNameChar_eq_false_iff.mpr hname,Cursor.unexpected]
    exact ⟨_,by simp only [Reader.next?,hstart,hread,Bool.false_eq_true,if_false]; rfl⟩
  | @noDelimiter blanks name gap rest ending more found h hfound hblank hcolon hname =>
    have htail : (rest ++ behind).head? = some found := by
      rw [List.head?_append,hhead,← List.head?_append,hfound]
      rfl
    obtain ⟨more,hmore⟩ := List.head?_eq_some_iff.mp htail
    have hstop : ∀ c ∈ (rest ++ behind).head?, ¬ Blank c ∧ (gap = [] → ¬ NameChar c) := by
      intro c hc
      rw [htail] at hc
      cases hc
      exact ⟨hblank,hname⟩
    have hread := h.readRule_of_ne n hstop (by simp [htail,hcolon])
    dsimp only
    rw [List.append_assoc,h.next?_eq,hread,hmore]
    exact ⟨_,rfl⟩
  | @ended blanks name gap h =>
    have hend : behind = [] := List.head?_eq_none_iff.mp hhead
    have hstop : ∀ c ∈ behind.head?, ¬ Blank c ∧ (gap = [] → ¬ NameChar c) := by simp [hend]
    have hread := h.readRule_of_ne n hstop (by simp [hend])
    dsimp only
    rw [h.next?_eq,hread,hend]
    exact ⟨_,rfl⟩
  | @noRegex blanks name gap ending h =>
    have hread := h.readRule_colon n (List.forall_mem_nil _) hbehind
    dsimp only
    rw [List.append_assoc,List.singleton_append,h.next?_eq,← List.nil_append behind,hread,if_pos rfl]
    exact ⟨_,rfl⟩

end Line.Reads

namespace Reader

theorem drain_of_none {r : Reader} (h : r.next? = none) : r.drain = ([], r) := by
  rw [drain]
  split
  · rfl
  · rename_i hsome
    rw [h] at hsome
    cases hsome

theorem drain_of_some {r after : Reader} {item : Except RuleError Rule}
    (h : r.next? = some (item, after)) : r.drain = (item :: after.drain.1, after.drain.2) := by
  rw [drain]
  split
  · rename_i hnone
    rw [h] at hnone
    cases hnone
  · rename_i hsome
    rw [h] at hsome
    cases hsome
    rfl

theorem next?_drain (r : Reader) : r.drain.2.next? = none := by
  fun_induction drain r with
  | case1 r h => exact h
  | case2 r item after _ rest ih => exact ih

theorem drain_congr {r s : Reader} (h : r.next? = s.next?) : r.drain.1 = s.drain.1 := by
  cases hs : s.next? with
  | none => rw [drain_of_none hs,drain_of_none (h.trans hs)]
  | some next => rw [drain_of_some hs,drain_of_some (h.trans hs)]

theorem next?_congr {c d : Cursor} (h : c.skipSeparators = d.skipSeparators) :
    next? ⟨c, false⟩ = next? ⟨d, false⟩ := by
  simp only [next?,h]

theorem drain_failed (c : Cursor) : (drain ⟨c, true⟩).1 = [] := by
  rw [drain_of_none rfl]

end Reader

/-- The next line as the reader meets it. -/
theorem Stands.exists_behind {n : Nat} {c : Cursor} {l : Line} {ls : List Line}
    (h : Stands n c (l :: ls)) :
    ∃ behind, c = ⟨l.text ++ behind, n, 1⟩ ∧ (∀ d ∈ l.text, ¬ BreakChar d) ∧
      (∀ d ∈ behind.head?, BreakChar d) ∧ behind.head? = l.ending.head? ∧
      ∀ k, Stands (n + 1) (Cursor.skipBreak ⟨behind, n, k⟩) ls := by
  generalize hls : l :: ls = all at h
  cases h with
  | line cs =>
    obtain ⟨htext,behind,hcs,hhead,hnext⟩ := lines_eq_cons hls.symm
    have hending := breakChar_of_mem_lines (hls ▸ List.mem_cons_self)
    exact ⟨behind,by rw [hcs],htext,hhead ▸ hending,hhead,hnext n⟩
  | ended m k => cases hls

namespace Items

variable {n : Nat} {ls : List Line} {items : List (Except RuleError Rule)} {c : Cursor}

theorem drain_eq (h : Items n ls items) (hc : Stands n c ls) :
    (Reader.drain ⟨c, false⟩).1 = items := by
  -- on the lines, not on the steps: one step of the reader passes every skipped line at once
  induction h generalizing c with
  | nil n =>
    generalize hls : ([] : List Line) = ls at hc
    cases hc with
    | line cs => exact absurd hls.symm (lines_ne_nil cs)
    | ended m k =>
      rw [Reader.drain_of_none]
      simp [Reader.next?,Cursor.skipSeparators_nil]
  | skip hreads _ ih =>
    obtain ⟨behind,rfl,htext,hbehind,_,hnext⟩ := hc.exists_behind
    obtain ⟨k,hskip⟩ := hreads.skipSeparators_eq htext hbehind
    rw [Reader.drain_congr (Reader.next?_congr hskip)]
    exact ih (hnext k)
  | rule hreads _ ih =>
    obtain ⟨behind,rfl,htext,hbehind,_,hnext⟩ := hc.exists_behind
    obtain ⟨k,hrule⟩ := hreads.next?_rule htext hbehind
    rw [Reader.drain_of_some hrule,ih (hnext k)]
  | error hreads =>
    obtain ⟨behind,rfl,htext,hbehind,hhead,_⟩ := hc.exists_behind
    obtain ⟨c,herror⟩ := hreads.next?_error htext hbehind hhead
    rw [Reader.drain_of_some herror,Reader.drain_failed]

theorem not_reads_error {l : Line} {rules : List Rule} (h : Items n (l :: ls) (rules.map .ok))
    (hc : Stands n c (l :: ls)) (e : RuleError) : ¬ l.Reads n (some (.error e)) := by
  intro he
  have herror : .error e ∈ rules.map Except.ok := by
    rw [← h.drain_eq hc,(Items.error he).drain_eq hc]
    exact List.mem_singleton_self _
  simp at herror

/-- Where all items are rules, no line reads as an error. -/
theorem forall_not_reads_error {rules : List Rule} (h : Items n ls (rules.map .ok))
    (hc : Stands n c ls) : ∀ p ∈ ls.zipIdx n, ∀ e, ¬ p.1.Reads p.2 (some (.error e)) := by
  induction ls generalizing n c rules with
  | nil => simp
  | cons l ls ih =>
    obtain ⟨behind,_,_,_,_,hnext⟩ := hc.exists_behind
    obtain ⟨later,hlater⟩ : ∃ later : List Rule, Items (n + 1) ls (later.map .ok) := by
      generalize hitems : rules.map Except.ok = items at h
      cases h with
      | skip _ hrest => exact ⟨rules,hitems ▸ hrest⟩
      | rule _ hrest =>
        obtain ⟨_,later,_,_,rfl⟩ := List.map_eq_cons_iff.mp hitems
        exact ⟨later,hrest⟩
      | error _ => simp [List.map_eq_cons_iff] at hitems
    intro p hp
    rcases List.mem_cons.mp hp with rfl | hp
    · exact h.not_reads_error hc
    · exact ih hlater (hnext 1) p hp

end Items

theorem collect_eq_ok {items : List (Except RuleError Rule)} {rules : List Rule} :
    collect items = .ok rules ↔ items = rules.map .ok := by
  induction items generalizing rules with
  | nil => cases rules <;> simp [collect]
  | cons item items ih =>
    cases item with
    | error e => cases rules <;> simp [collect]
    | ok r =>
      rw [collect]
      cases rules with
      | nil => split <;> simp
      | cons s rules =>
        rw [List.map_cons,List.cons.injEq,← ih]
        split
        · rename_i he
          simp [he]
        · rename_i hok
          simp [hok]

/-- The reader accepts the grammar of the lines: it gives the items of the lines and then no more, and all
rules are returned if and only if no line reads as an error. Reading bytes, it stops between characters. -/
theorem readRules_lines (text : String) :
    (∀ items, (Reader.start text).drain.1 = items ↔ Items 1 (lines text.toList) items) ∧
      (Reader.start text).drain.2.next? = none ∧
      (∀ rules, readRules text = .ok rules ↔ Items 1 (lines text.toList) (rules.map .ok)) ∧
      ((∃ rules, readRules text = .ok rules) ↔
        ∀ p ∈ (lines text.toList).zipIdx 1, ∀ e, ¬ p.1.Reads p.2 (some (.error e))) ∧
      ∀ p ∈ [isBlank, isNameChar, isInLine], ScansBytes p := by
  have hstart : Stands 1 (.start text) (lines text.toList) := .line text.toList
  obtain ⟨items,hitems⟩ := exists_items (lines text.toList) (fun _ hl => breakChar_of_mem_lines hl) 1
  have hdrain : ∀ items, (Reader.start text).drain.1 = items ↔ Items 1 (lines text.toList) items := by
    intro others
    constructor
    · intro h
      rw [← h,show (Reader.start text).drain.1 = items from hitems.drain_eq hstart]
      exact hitems
    · intro h
      exact h.drain_eq hstart
  have hok : ∀ rules, readRules text = .ok rules ↔
      Items 1 (lines text.toList) (rules.map .ok) := by
    intro rules
    rw [readRules,collect_eq_ok,hdrain]
  refine ⟨hdrain,Reader.next?_drain _,hok,?_,?_⟩
  · constructor
    · intro hfrom
      obtain ⟨rules,hrules⟩ := hfrom
      exact ((hok rules).mp hrules).forall_not_reads_error hstart
    · intro hno
      obtain ⟨rules,rfl⟩ := hitems.exists_rules hno
      exact ⟨rules,(hok rules).mpr hitems⟩
  · simp [scansBytes_isBlank,scansBytes_isNameChar,scansBytes_isInLine]

end LexAutomata.RuleFile
