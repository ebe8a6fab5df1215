import LexAutomata.RuleFile.Reader
import Mathlib.Tactic.Tauto

namespace LexAutomata.RuleFile

def Blank (c : Char) : Prop := c = ' ' ∨ c = '\t'

def NameChar (c : Char) : Prop :=
  '0' ≤ c ∧ c ≤ '9' ∨ 'A' ≤ c ∧ c ≤ 'Z' ∨ 'a' ≤ c ∧ c ≤ 'z' ∨ c = '_'

def BreakChar (c : Char) : Prop := c = '\n' ∨ c = '\r'

theorem isBlank_iff {c : Char} : isBlank c = true ↔ Blank c := by simp [isBlank,Blank]

theorem isNameChar_iff {c : Char} : isNameChar c = true ↔ NameChar c := by
  have halphanum : c.isAlphanum =
      (decide ('A' ≤ c ∧ c ≤ 'Z') || decide ('a' ≤ c) && decide (c ≤ 'z') ||
        decide ('0' ≤ c) && decide (c ≤ '9')) := rfl
  simp only [isNameChar,halphanum,NameChar,Bool.or_eq_true,Bool.and_eq_true,decide_eq_true_eq,
    beq_iff_eq]
  tauto

theorem isInLine_iff {c : Char} : isInLine c = true ↔ ¬ BreakChar c := by
  simp [isInLine,BreakChar]

theorem isBlank_eq_false_iff {c : Char} : isBlank c = false ↔ ¬ Blank c := by
  rw [← isBlank_iff,Bool.not_eq_true]

theorem isNameChar_eq_false_iff {c : Char} : isNameChar c = false ↔ ¬ NameChar c := by
  rw [← isNameChar_iff,Bool.not_eq_true]

theorem isInLine_eq_false_iff {c : Char} : isInLine c = false ↔ BreakChar c := by
  rw [← Bool.not_eq_true,isInLine_iff,not_not]

theorem BreakChar.not_blank {c : Char} (h : BreakChar c) : ¬ Blank c := by
  rw [← isBlank_eq_false_iff]
  rcases h with rfl | rfl <;> rfl

theorem BreakChar.not_nameChar {c : Char} (h : BreakChar c) : ¬ NameChar c := by
  rw [← isNameChar_eq_false_iff]
  rcases h with rfl | rfl <;> rfl

theorem NameChar.not_blank {c : Char} (h : NameChar c) : ¬ Blank c := by
  rintro (rfl | rfl) <;> exact absurd (isNameChar_iff.mpr h) (by decide)

/-- A line of a text, and the break behind it, if the text goes on. -/
structure Line where
  text : List Char
  ending : List Char
  deriving DecidableEq

/-- The lines of a text. A carriage return and a line feed together are one break. -/
def lines : List Char → List Line
  | [] => [⟨[], []⟩]
  | '\n' :: cs => ⟨[], ['\n']⟩ :: lines cs
  | '\r' :: '\n' :: cs => ⟨[], ['\r', '\n']⟩ :: lines cs
  | '\r' :: cs => ⟨[], ['\r']⟩ :: lines cs
  | c :: cs => (lines cs).modifyHead fun l => ⟨c :: l.text, l.ending⟩

/-- The column behind some characters of a line. -/
def columnAfter (cs : List Char) : Nat := 1 + (String.ofList cs).utf8ByteSize

/-- Blanks, a name and blanks again, as they come before the colon of a rule. -/
structure Head (blanks name gap : List Char) : Prop where
  blank_before : ∀ c ∈ blanks, Blank c
  named : ∀ c ∈ name, NameChar c
  name_ne_nil : name ≠ []
  blank_behind : ∀ c ∈ gap, Blank c

/-- What the line of the number reads as: nothing where it is skipped, a rule or an error. -/
inductive Line.Reads (number : Nat) : Line → Option (Except RuleError Rule) → Prop where
  | skipped {blanks rest ending : List Char} :
      (∀ c ∈ blanks, Blank c) → rest = [] ∨ rest.head? = some '#' →
        Reads number ⟨blanks ++ rest, ending⟩ none
  | rule {blanks name gap regex ending : List Char} :
      Head blanks name gap → regex ≠ [] →
        Reads number ⟨blanks ++ name ++ gap ++ ':' :: regex, ending⟩
          (some (.ok ⟨String.ofList name, String.ofList regex, number,
            columnAfter (blanks ++ name ++ gap ++ [':'])⟩))
  | noName {blanks rest ending : List Char} {found : Char} :
      (∀ c ∈ blanks, Blank c) → ¬ Blank found → found ≠ '#' → ¬ NameChar found →
        Reads number ⟨blanks ++ found :: rest, ending⟩
          (some (.error (.unexpectedChar number (columnAfter blanks) found RuleError.expectedName)))
  /-- What is found is the next character of the line or the first one of its break. -/
  | noDelimiter {blanks name gap rest ending more : List Char} {found : Char} :
      Head blanks name gap → rest ++ ending = found :: more →
        ¬ Blank found → found ≠ ':' → (gap = [] → ¬ NameChar found) →
        Reads number ⟨blanks ++ name ++ gap ++ rest, ending⟩
          (some (.error (.unexpectedChar number (columnAfter (blanks ++ name ++ gap)) found
            RuleError.expectedDelimiter)))
  | ended {blanks name gap : List Char} :
      Head blanks name gap →
        Reads number ⟨blanks ++ name ++ gap, []⟩
          (some (.error (.unexpectedEnd number (columnAfter (blanks ++ name ++ gap))
            RuleError.expectedDelimiter)))
  | noRegex {blanks name gap ending : List Char} :
      Head blanks name gap →
        Reads number ⟨blanks ++ name ++ gap ++ [':'], ending⟩
          (some (.error (.missingRegex number (columnAfter (blanks ++ name ++ gap ++ [':'])))))

/-- What the lines give, the first of them with the number: the rules of those that are not skipped, up
to the first error and with it. -/
inductive Items : Nat → List Line → List (Except RuleError Rule) → Prop where
  | nil (number : Nat) : Items number [] []
  | skip {number : Nat} {l : Line} {ls : List Line} {items : List (Except RuleError Rule)} :
      l.Reads number none → Items (number + 1) ls items → Items number (l :: ls) items
  | rule {number : Nat} {l : Line} {ls : List Line} {items : List (Except RuleError Rule)}
      {r : Rule} : l.Reads number (some (.ok r)) → Items (number + 1) ls items →
        Items number (l :: ls) (.ok r :: items)
  | error {number : Nat} {l : Line} {ls : List Line} {e : RuleError} :
      l.Reads number (some (.error e)) → Items number (l :: ls) [.error e]

theorem breakChar_of_mem_lines {cs : List Char} {l : Line} (hl : l ∈ lines cs) :
    ∀ c ∈ l.ending.head?, BreakChar c := by
  fun_induction lines cs generalizing l with
  | case1 =>
    rw [List.mem_singleton.mp hl]
    simp
  | case2 cs ih =>
    rcases List.mem_cons.mp hl with rfl | hl
    · simp [BreakChar]
    · exact ih hl
  | case3 cs ih =>
    rcases List.mem_cons.mp hl with rfl | hl
    · simp [BreakChar]
    · exact ih hl
  | case4 cs _ ih =>
    rcases List.mem_cons.mp hl with rfl | hl
    · simp [BreakChar]
    · exact ih hl
  | case5 c cs _ _ _ ih =>
    cases hcs : lines cs with
    | nil =>
      rw [hcs] at hl
      cases hl
    | cons m ms =>
      rw [hcs] at hl ih
      rcases List.mem_cons.mp hl with rfl | hl
      · have hm := ih (l := m) List.mem_cons_self
        exact hm
      · exact ih (List.mem_cons_of_mem _ hl)

theorem exists_span (p : Char → Bool) (cs : List Char) :
    ∃ front rest, cs = front ++ rest ∧ (∀ c ∈ front, p c = true) ∧
      ∀ c ∈ rest.head?, p c = false := by
  refine ⟨cs.takeWhile p,cs.dropWhile p,List.takeWhile_append_dropWhile.symm,?_,?_⟩
  · exact List.all_eq_true.mp List.all_takeWhile
  · intro c hc
    have hnot := List.head?_dropWhile_not p cs
    rw [Option.mem_def.mp hc] at hnot
    exact hnot

namespace Line

/-- What is behind the head of a line decides what the line reads as. -/
theorem exists_reads_of_head {blanks name gap : List Char} (h : Head blanks name gap)
    (tail : List Char) (htail : ∀ c ∈ tail.head?, ¬ Blank c ∧ (gap = [] → ¬ NameChar c))
    (ending : List Char) (hending : ∀ c ∈ ending.head?, BreakChar c) (number : Nat) :
    ∃ o, Reads number ⟨blanks ++ name ++ gap ++ tail, ending⟩ o := by
  cases tail with
  | nil =>
    cases ending with
    | nil =>
      rw [List.append_nil]
      exact ⟨_,.ended h⟩
    | cons found more =>
      have hbreak : BreakChar found := hending found rfl
      have hcolon : found ≠ ':' := by rcases hbreak with rfl | rfl <;> decide
      exact ⟨_,.noDelimiter h rfl hbreak.not_blank hcolon fun _ => hbreak.not_nameChar⟩
  | cons c tail =>
    obtain ⟨hblank,hname⟩ := htail c rfl
    by_cases hcolon : c = ':'
    · subst hcolon
      cases tail with
      | nil => exact ⟨_,.noRegex h⟩
      | cons d regex => exact ⟨_,.rule h (List.cons_ne_nil d regex)⟩
    · exact ⟨_,.noDelimiter h rfl hblank hcolon hname⟩

theorem exists_reads (l : Line) (hending : ∀ c ∈ l.ending.head?, BreakChar c) (number : Nat) :
    ∃ o, l.Reads number o := by
  obtain ⟨text,ending⟩ := l
  obtain ⟨blanks,body,rfl,hblanks,hbody⟩ := exists_span isBlank text
  have hblanks : ∀ c ∈ blanks, Blank c := fun c hc => isBlank_iff.mp (hblanks c hc)
  cases body with
  | nil => exact ⟨_,.skipped hblanks (.inl rfl)⟩
  | cons c body =>
    have hc : ¬ Blank c := isBlank_eq_false_iff.mp (hbody c rfl)
    by_cases hcomment : c = '#'
    · exact ⟨_,.skipped hblanks (.inr (congrArg some hcomment))⟩
    by_cases hname : NameChar c
    · obtain ⟨name,behind,hsplit,hnamed,hbehind⟩ := exists_span isNameChar (c :: body)
      obtain ⟨gap,tail,rfl,hgap,htail⟩ := exists_span isBlank behind
      have hhead : Head blanks name gap := by
        refine ⟨hblanks,fun c hc => isNameChar_iff.mp (hnamed c hc),?_,
          fun c hc => isBlank_iff.mp (hgap c hc)⟩
        rintro rfl
        rw [List.nil_append] at hsplit
        exact isNameChar_eq_false_iff.mp (hbehind c (hsplit ▸ rfl)) hname
      have hstop : ∀ d ∈ tail.head?, ¬ Blank d ∧ (gap = [] → ¬ NameChar d) := by
        intro d hd
        refine ⟨isBlank_eq_false_iff.mp (htail d hd),?_⟩
        rintro rfl
        exact isNameChar_eq_false_iff.mp (hbehind d hd)
      have hreads := exists_reads_of_head hhead tail hstop ending hending number
      rw [hsplit]
      simpa using hreads
    · exact ⟨_,.noName hblanks hc hcomment hname⟩

end Line

theorem exists_items (ls : List Line) (h : ∀ l ∈ ls, ∀ c ∈ l.ending.head?, BreakChar c) (n : Nat) :
    ∃ items, Items n ls items := by
  induction ls generalizing n with
  | nil => exact ⟨[],.nil n⟩
  | cons l ls ih =>
    obtain ⟨items,hitems⟩ := ih (fun m hm => h m (List.mem_cons_of_mem _ hm)) (n + 1)
    obtain ⟨o,ho⟩ := l.exists_reads (h l List.mem_cons_self) n
    cases o with
    | none => exact ⟨items,.skip ho hitems⟩
    | some o =>
      cases o with
      | error e => exact ⟨_,.error ho⟩
      | ok r => exact ⟨_,.rule ho hitems⟩

theorem Items.exists_rules {n : Nat} {ls : List Line} {items : List (Except RuleError Rule)}
    (h : Items n ls items)
    (hno : ∀ p ∈ ls.zipIdx n, ∀ e, ¬ p.1.Reads p.2 (some (.error e))) :
    ∃ rules : List Rule, items = rules.map .ok := by
  induction h with
  | nil n => exact ⟨[],rfl⟩
  | skip _ _ ih => exact ih fun p hp => hno p (List.mem_cons_of_mem _ hp)
  | @rule n l ls items r _ _ ih =>
    obtain ⟨rules,rfl⟩ := ih fun p hp => hno p (List.mem_cons_of_mem _ hp)
    exact ⟨r :: rules,rfl⟩
  | @error n l ls e hreads => exact absurd hreads (hno (l, n) List.mem_cons_self e)

end LexAutomata.RuleFile
