import LexAutomata.Output.Json
import LexAutomata.Proofs.Text.Escapes

namespace LexAutomata.Output

open Text (decimal Escaped Legible Stops digitChar_inj isDigit_of_mem_decimal legible_between_marks
  legible_decimal stops_cons stops_nil)

namespace Json

section Texts

/-- The character behind a backslash and a letter. -/
def shortEscape : Char → Char
  | 'b' => '\x08'
  | 'f' => '\x0c'
  | 'n' => '\n'
  | 'r' => '\r'
  | 't' => '\t'
  | c => c

/-- The four digits of a control character. -/
def ControlName (c : Char) (name : List Char) : Prop :=
  c.toNat < 0x20 ∧ name = ['0', '0', Nat.digitChar (c.toNat / 16), Nat.digitChar (c.toNat % 16)]

theorem controlName_inj (c d : Char) (m n s t : List Char) (hm : ControlName c m) (hn : ControlName d n)
    (h : m ++ s = n ++ t) : c = d ∧ s = t := by
  obtain ⟨hc,rfl⟩ := hm
  obtain ⟨hd,rfl⟩ := hn
  simp only [List.cons_append,List.nil_append,List.cons.injEq,true_and] at h
  obtain ⟨hhigh,hlow,hst⟩ := h
  have hdiv := digitChar_inj _ (by omega) _ (by omega) hhigh
  have hmod := digitChar_inj _ (Nat.mod_lt _ (by decide)) _ (Nat.mod_lt _ (by decide)) hlow
  refine ⟨Char.toNat_inj.mp ?_,hst⟩
  omega

theorem escaped_escapeChar (c : Char) : Escaped shortEscape ControlName c (escapeChar c) := by
  unfold escapeChar
  split
  case isTrue h => exact .short (by decide) h.symm
  case isFalse hmark =>
    split
    case isTrue h => exact .short (by decide) h.symm
    case isFalse hslash =>
      split
      case isTrue h => exact .short (by decide) h.symm
      split
      case isTrue h => exact .short (by decide) h.symm
      split
      case isTrue h => exact .short (by decide) h.symm
      split
      case isTrue h => exact .short (by decide) h.symm
      split
      case isTrue h => exact .short (by decide) h.symm
      split
      case isTrue hcontrol => exact .long ⟨hcontrol,rfl⟩
      exact .plain hslash hmark

theorem legible_textBody (s : String) : Legible (fun _ => True) (fun s => (textBody s).toList) s :=
  legible_between_marks escaped_escapeChar controlName_inj (fun s => by simp [textBody]) s

end Texts

section Items

variable {α : Type} {write : α → String} {as : List α} {closing : String}

theorem toList_bracketed_cons (opening closing : String) (depth : Nat) (write : α → String) (a : α)
    (as : List α) :
    (bracketed opening closing depth ((a :: as).map write)).toList =
      opening.toList ++ ('\n' :: ([',', '\n'].intercalate ((a :: as).map fun a =>
        (indentation (depth + 1)).toList ++ (write a).toList) ++
          '\n' :: ((indentation depth).toList ++ closing.toList))) := by
  have hcomma : ",\n".toList = [',', '\n'] := rfl
  have hfeed : "\n".toList = ['\n'] := rfl
  simp only [bracketed,List.map_cons,List.isEmpty_cons,Bool.false_eq_true,if_false,String.toList_append,
    String.toList_intercalate,List.map_map,hcomma,hfeed,List.append_assoc,List.cons_append,
    List.nil_append,Function.comp_def]

/-- Items between brackets, if the closing bracket is told from the end of a line. -/
theorem legible_bracketed (h : ∀ a ∈ as, Legible (Stops Char.isDigit) (fun a => (write a).toList) a)
    (opening : String) (hclosing : ∀ s t, closing.toList ++ s ≠ '\n' :: t) (depth : Nat) :
    Legible (fun _ => True) (fun as => (bracketed opening closing depth (as.map write)).toList) as := by
  have hempty : (bracketed opening closing depth (List.map write [])).toList =
      opening.toList ++ closing.toList := by
    simp [bracketed]
  have hitems : Legible (fun s => s.head? = some '\n') (fun bs => [',', '\n'].intercalate
      (bs.map fun b => (indentation (depth + 1)).toList ++ (write b).toList)) as := by
    apply Legible.intercalate fun a ha => (h a ha).prepend _
    case hends =>
      intro s hs c hc
      obtain rfl : '\n' = c := by simpa [hs] using hc
      decide
    case hsep => exact fun s => stops_cons.mpr (by decide)
    case hmore => simp
    case hitem => simp [indentation,Nat.mul_add,List.replicate_succ]
  intro bs s t _ _ heq
  dsimp only at heq
  cases as with
  | nil =>
    cases bs with
    | nil => exact ⟨rfl,List.append_cancel_left heq⟩
    | cons b bs =>
      rw [hempty,toList_bracketed_cons,List.append_assoc,List.append_assoc] at heq
      exact absurd (List.append_cancel_left heq) (hclosing s _)
  | cons a as =>
    cases bs with
    | nil =>
      rw [hempty,toList_bracketed_cons,List.append_assoc,List.append_assoc] at heq
      exact absurd (List.append_cancel_left heq).symm (hclosing t _)
    | cons b bs =>
      simp only [toList_bracketed_cons,List.append_assoc,List.cons_append,
        List.append_cancel_left_eq,List.cons.injEq,true_and] at heq
      obtain ⟨hitems,hend⟩ := hitems (b :: bs) _ _ rfl rfl heq
      simp only [List.cons.injEq,true_and,List.append_cancel_left_eq] at hend
      exact ⟨hitems,hend⟩

end Items

section Values

theorem prettyItems_eq_map (depth : Nat) (items : List Json) :
    prettyItems depth items = items.map (pretty depth) := by
  induction items with
  | nil => rfl
  | cons j items ih => rw [prettyItems,ih,List.map_cons]

def prettyField (depth : Nat) (f : String × Json) : String := textBody f.1 ++ ": " ++ pretty depth f.2

theorem prettyFields_eq_map (depth : Nat) (fields : List (String × Json)) :
    prettyFields depth fields = fields.map (prettyField depth) := by
  induction fields with
  | nil => rfl
  | cons f fields ih =>
    rw [prettyFields,ih,List.map_cons]
    rfl

/-- How the text of a value begins, where all digits are as one. -/
def lead : Json → Char
  | null => 'n'
  | number _ => '0'
  | minusOne => '-'
  | text _ => '"'
  | array _ => '['
  | object _ => '\x7b'

theorem pretty_eq_cons (depth : Nat) (j : Json) :
    ∃ c cs, (pretty depth j).toList = c :: cs ∧ (if c.isDigit then '0' else c) = j.lead := by
  have hbracketed : ∀ opening closing items, ∃ cs,
      (bracketed opening closing depth items).toList = opening.toList ++ cs := by
    intro opening closing items
    unfold bracketed
    split
    · exact ⟨closing.toList,by simp⟩
    · simp only [String.toList_append,List.append_assoc]
      exact ⟨_,rfl⟩
  cases j with
  | null => exact ⟨'n',"ull".toList,by rw [pretty]; rfl,rfl⟩
  | number n =>
    have hdigits : ∀ c ∈ (decimal n).toList, c.isDigit = true := fun c => isDigit_of_mem_decimal
    cases hn : (decimal n).toList with
    | nil => simp [decimal] at hn
    | cons c cs =>
      rw [hn,List.forall_mem_cons] at hdigits
      exact ⟨c,cs,hn,if_pos hdigits.1⟩
  | minusOne => exact ⟨'-',"1".toList,by rw [pretty]; rfl,rfl⟩
  | text s => exact ⟨'"',s.toList.flatMap escapeChar ++ ['"'],by simp [pretty,textBody],rfl⟩
  | array items =>
    obtain ⟨cs,hcs⟩ := hbracketed "[" "]" (prettyItems (depth + 1) items)
    exact ⟨'[',cs,by rw [pretty,hcs]; rfl,rfl⟩
  | object fields =>
    obtain ⟨cs,hcs⟩ := hbracketed "\x7b" "\x7d" (prettyFields (depth + 1) fields)
    exact ⟨'\x7b',cs,by rw [pretty,hcs]; rfl,rfl⟩

theorem lead_eq {depth : Nat} {j k : Json} {s t : List Char}
    (h : (pretty depth j).toList ++ s = (pretty depth k).toList ++ t) : j.lead = k.lead := by
  obtain ⟨c,cs,hj,hc⟩ := pretty_eq_cons depth j
  obtain ⟨d,ds,hk,hd⟩ := pretty_eq_cons depth k
  rw [hj,hk,List.cons_append,List.cons_append,List.cons.injEq] at h
  rw [← hc,← hd,h.1]

mutual

theorem legible_pretty (depth : Nat) :
    ∀ j : Json, Legible (Stops Char.isDigit) (fun j => (pretty depth j).toList) j
  | null => by
    intro k s t hs ht heq
    have hlead := lead_eq heq
    cases k with
    | null => exact ⟨rfl,List.append_cancel_left heq⟩
    | _ => simp [lead] at hlead
  | number n => by
    intro k s t hs ht heq
    have hlead := lead_eq heq
    cases k with
    | number m =>
      obtain ⟨rfl,hst⟩ := legible_decimal n m s t hs ht heq
      exact ⟨rfl,hst⟩
    | _ => simp [lead] at hlead
  | minusOne => by
    intro k s t hs ht heq
    have hlead := lead_eq heq
    cases k with
    | minusOne => exact ⟨rfl,List.append_cancel_left heq⟩
    | _ => simp [lead] at hlead
  | text r => by
    intro k s t hs ht heq
    have hlead := lead_eq heq
    cases k with
    | text q =>
      obtain ⟨rfl,hst⟩ := legible_textBody r q s t trivial trivial heq
      exact ⟨rfl,hst⟩
    | _ => simp [lead] at hlead
  | array items => by
    intro k s t hs ht heq
    have hlead := lead_eq heq
    cases k with
    | array others =>
      simp only [pretty,prettyItems_eq_map] at heq
      obtain ⟨rfl,hst⟩ := legible_bracketed (legible_items (depth + 1) items) "[" (by simp) depth others
        s t trivial trivial heq
      exact ⟨rfl,hst⟩
    | _ => simp [lead] at hlead
  | object fields => by
    intro k s t hs ht heq
    have hlead := lead_eq heq
    cases k with
    | object others =>
      simp only [pretty,prettyFields_eq_map] at heq
      obtain ⟨rfl,hst⟩ := legible_bracketed (legible_fields (depth + 1) fields) "\x7b" (by simp) depth
        others s t trivial trivial heq
      exact ⟨rfl,hst⟩
    | _ => simp [lead] at hlead

theorem legible_items (depth : Nat) : ∀ items : List Json, ∀ j ∈ items,
    Legible (Stops Char.isDigit) (fun j => (pretty depth j).toList) j
  | [] => List.forall_mem_nil _
  | j :: items => List.forall_mem_cons.mpr ⟨legible_pretty depth j,legible_items depth items⟩

theorem legible_fields (depth : Nat) : ∀ fields : List (String × Json), ∀ f ∈ fields,
    Legible (Stops Char.isDigit) (fun f => (prettyField depth f).toList) f
  | [] => List.forall_mem_nil _
  | (name, j) :: fields => by
    refine List.forall_mem_cons.mpr ⟨fun f s t hs ht heq => ?_,legible_fields depth fields⟩
    simp only [prettyField,String.toList_append,List.append_assoc] at heq
    obtain ⟨hname,hrest⟩ := legible_textBody name f.1 _ _ trivial trivial heq
    obtain ⟨hj,hst⟩ := legible_pretty depth j f.2 s t hs ht (List.append_cancel_left hrest)
    exact ⟨Prod.ext hname hj,hst⟩

end

theorem pretty_injective : Function.Injective (pretty 0) := by
  intro j k h
  exact (legible_pretty 0 j).eq_of_code_eq stops_nil (congrArg String.toList h)

end Values

end Json

section Tables

/-- The names that stand in a document alone or in an array. -/
def writtenNames : Json → List String
  | .text name => [name]
  | .array items => items.filterMap fun j =>
    match j with
    | .text name => some name
    | _ => none
  | _ => []

theorem writtenNames_namesJson (names : List String) : writtenNames (namesJson names) = names := by
  have harray : ∀ all : List String, writtenNames (.array (all.map .text)) = all := by
    intro all
    simp [writtenNames,List.filterMap_map]
  match names with
  | [] => rfl
  | [name] => rfl
  | name :: other :: more => exact harray (name :: other :: more)

theorem rowJson_injective : Function.Injective rowJson := by
  rintro ⟨label,target,names⟩ ⟨label',target',names'⟩ h
  simp only [rowJson,Json.array.injEq,List.cons.injEq,Json.number.injEq,and_true] at h
  obtain ⟨rfl,rfl,hnames⟩ := h
  cases names with
  | none =>
    cases names' with
    | none => rfl
    | some i => cases hnames
  | some i =>
    cases names' with
    | none => cases hnames
    | some j => rw [Json.number.inj hnames]

theorem json_injective : Function.Injective Tables.json := by
  intro t u h
  have htext : Function.Injective Json.text := fun _ _ => Json.text.inj
  have hnames : Function.Injective namesJson := Function.LeftInverse.injective writtenNames_namesJson
  simp only [Tables.json,Json.object.injEq,List.cons.injEq,Prod.mk.injEq,Json.number.injEq,
    Json.array.injEq,true_and,and_true] at h
  obtain ⟨hstart,hlabels,hentries,hall⟩ := h
  have hrows : t.rows = u.rows := by
    apply List.map_injective_iff.mpr ?_ hall
    intro rows rows' h
    cases rows with
    | none =>
      cases rows' with
      | none => rfl
      | some rows' => cases h
    | some rows =>
      cases rows' with
      | none => cases h
      | some rows' => rw [List.map_injective_iff.mpr rowJson_injective (Json.array.inj h)]
  calc
    t = ⟨t.start,t.labels,t.names,t.rows⟩ := rfl
    _ = ⟨u.start,u.labels,u.names,u.rows⟩ := by
      rw [hstart,List.map_injective_iff.mpr htext hlabels,List.map_injective_iff.mpr hnames hentries,
        hrows]

theorem renderJson_eq_iff (c d : Dfa) :
    renderJson c = renderJson d ↔ Tables.ofDfa c = Tables.ofDfa d := by
  constructor
  · intro h
    have hchars := congrArg String.toList h
    simp only [renderJson,String.toList_append,List.append_cancel_right_eq] at hchars
    exact json_injective (Json.pretty_injective (String.toList_inj.mp hchars))
  · intro h
    rw [renderJson,h,renderJson]

end Tables

end LexAutomata.Output
