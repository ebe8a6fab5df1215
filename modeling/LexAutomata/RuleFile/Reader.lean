import LexAutomata.RuleFile.Rule

namespace LexAutomata.RuleFile

structure Cursor where
  rest : List Char
  line : Nat
  column : Nat
  deriving DecidableEq

def isNameChar (c : Char) : Bool := c.isAlphanum || c == '_'

def isBlank (c : Char) : Bool := c == ' ' || c == '\t'

def isInLine (c : Char) : Bool := c != '\n' && c != '\r'

/-- The number of bytes that encode the characters. -/
def utf8Length : List Char → Nat
  | [] => 0
  | c :: cs => c.utf8Size + utf8Length cs

namespace Cursor

def start (text : String) : Cursor := ⟨text.toList, 1, 1⟩

def skipWhile (c : Cursor) (p : Char → Bool) : Cursor :=
  ⟨c.rest.dropWhile p, c.line, c.column + utf8Length (c.rest.takeWhile p)⟩

/-- Past a line break, if one is next. -/
def skipBreak (c : Cursor) : Cursor :=
  match c.rest with
  | '\n' :: rest => ⟨rest, c.line + 1, 1⟩
  | '\r' :: '\n' :: rest => ⟨rest, c.line + 1, 1⟩
  | '\r' :: rest => ⟨rest, c.line + 1, 1⟩
  | _ => c

theorem length_dropWhile_le (p : Char → Bool) (cs : List Char) :
    (cs.dropWhile p).length ≤ cs.length := by
  induction cs with
  | nil => simp
  | cons c cs ih =>
    rw [List.dropWhile_cons]
    split
    · simp only [List.length_cons]
      omega
    · exact Nat.le_refl _

theorem skipWhile_length_le (c : Cursor) (p : Char → Bool) :
    (c.skipWhile p).rest.length ≤ c.rest.length := length_dropWhile_le p c.rest

theorem skipBreak_length_le (c : Cursor) : c.skipBreak.rest.length ≤ c.rest.length := by
  unfold skipBreak
  split
  · rename_i rest h
    rw [h]
    exact Nat.le_succ _
  · rename_i rest h
    rw [h]
    exact Nat.le_add_right _ 2
  · rename_i rest _ h
    rw [h]
    exact Nat.le_succ _
  · exact Nat.le_refl _

theorem skipBreak_length_lt {c : Cursor} {b : Char} {rest : List Char} (h : c.rest = b :: rest)
    (hb : isInLine b = false) : c.skipBreak.rest.length < c.rest.length := by
  have hc : b = '\n' ∨ b = '\r' := by
    by_cases hn : b = '\n'
    · exact .inl hn
    · exact .inr (by simpa [isInLine,hn] using hb)
  unfold skipBreak
  split
  · rename_i tail ht
    rw [ht]
    exact Nat.lt_succ_self _
  · rename_i tail ht
    rw [ht]
    exact Nat.lt_add_of_pos_right Nat.two_pos
  · rename_i tail _ ht
    rw [ht]
    exact Nat.lt_succ_self _
  · rename_i hn _ hr
    rcases hc with rfl | rfl
    · exact absurd h (hn rest)
    · exact absurd h (hr rest)

/-- Past blanks, line breaks and comment lines, up to the next rule. -/
def skipSeparators (c : Cursor) : Cursor :=
  let blank := c.skipWhile isBlank
  match _h : blank.rest with
  | [] => blank
  | b :: _ =>
    if b = '#' then skipSeparators (blank.skipWhile isInLine)
    else if isInLine b then blank
    else skipSeparators blank.skipBreak
termination_by c.rest.length
decreasing_by
  · rename_i rest hb
    have hle := skipWhile_length_le c isBlank
    have hlt : (blank.skipWhile isInLine).rest.length < blank.rest.length := by
      subst hb
      have := length_dropWhile_le isInLine rest
      simp only [skipWhile,_h,List.length_cons]
      rw [List.dropWhile_cons,if_pos (by decide)]
      omega
    exact Nat.lt_of_lt_of_le hlt hle
  · rename_i hb
    have hle := skipWhile_length_le c isBlank
    exact Nat.lt_of_lt_of_le (skipBreak_length_lt _h (by simpa using hb)) hle

def unexpected (c : Cursor) (expected : String) : RuleError :=
  match c.rest with
  | [] => .unexpectedEnd c.line c.column expected
  | found :: _ => .unexpectedChar c.line c.column found expected

/-- The rule that starts here, and the place behind its line. -/
def readRule (c : Cursor) : Except RuleError (Rule × Cursor) :=
  let name := c.rest.takeWhile isNameChar
  if name.isEmpty then .error (c.unexpected RuleError.expectedName)
  else
    let delimiter := (c.skipWhile isNameChar).skipWhile isBlank
    match delimiter.rest with
    | ':' :: rest =>
      let body : Cursor := ⟨rest, delimiter.line, delimiter.column + 1⟩
      let regex := body.rest.takeWhile isInLine
      if regex.isEmpty then .error (.missingRegex body.line body.column)
      else
        .ok (⟨String.ofList name, String.ofList regex, c.line, body.column⟩,
          (body.skipWhile isInLine).skipBreak)
    | _ => .error (delimiter.unexpected RuleError.expectedDelimiter)

theorem readRule_length_lt {c next : Cursor} {r : Rule} (h : c.readRule = .ok (r, next)) :
    next.rest.length < c.rest.length := by
  unfold readRule at h
  dsimp only at h
  split at h
  · simp at h
  · split at h
    · rename_i rest hd
      split at h
      · simp at h
      · simp only [Except.ok.injEq,Prod.mk.injEq] at h
        rw [← h.2]
        have h1 := skipBreak_length_le
          (skipWhile ⟨rest, ((c.skipWhile isNameChar).skipWhile isBlank).line,
            ((c.skipWhile isNameChar).skipWhile isBlank).column + 1⟩ isInLine)
        have h2 := skipWhile_length_le
          ⟨rest, ((c.skipWhile isNameChar).skipWhile isBlank).line,
            ((c.skipWhile isNameChar).skipWhile isBlank).column + 1⟩ isInLine
        have h3 := skipWhile_length_le (c.skipWhile isNameChar) isBlank
        have h4 := skipWhile_length_le c isNameChar
        rw [hd] at h3
        simp only [List.length_cons] at h2 h3
        omega
    · simp at h

end Cursor

/-- Where the reader stands, and whether it has met an error. -/
structure Reader where
  cursor : Cursor
  failed : Bool
  deriving DecidableEq

namespace Reader

def start (text : String) : Reader := ⟨.start text, false⟩

def next? (r : Reader) : Option (Except RuleError Rule × Reader) :=
  if r.failed then none
  else
    let c := r.cursor.skipSeparators
    if c.rest.isEmpty then none
    else
      match c.readRule with
      | .error e => some (.error e, ⟨c, true⟩)
      | .ok (rule, after) => some (.ok rule, ⟨after, false⟩)

end Reader

theorem Cursor.skipSeparators_length_le (c : Cursor) :
    c.skipSeparators.rest.length ≤ c.rest.length := by
  fun_induction Cursor.skipSeparators c with
  | case1 c => exact Cursor.skipWhile_length_le c isBlank
  | case2 c =>
    rename_i ih
    exact Nat.le_trans ih (Nat.le_trans (Cursor.skipWhile_length_le _ _)
      (Cursor.skipWhile_length_le c isBlank))
  | case3 c => exact Cursor.skipWhile_length_le c isBlank
  | case4 c =>
    rename_i ih
    exact Nat.le_trans ih (Nat.le_trans (Cursor.skipBreak_length_le _)
      (Cursor.skipWhile_length_le c isBlank))

namespace Reader

/-- What is left to do: nothing after an error. -/
def remaining (r : Reader) : Nat := if r.failed then 0 else r.cursor.rest.length + 1

theorem remaining_lt {r after : Reader} {item : Except RuleError Rule}
    (h : r.next? = some (item, after)) : after.remaining < r.remaining := by
  unfold next? at h
  dsimp only at h
  split at h
  · simp at h
  · rename_i hf
    split at h
    · simp at h
    · have hs := r.cursor.skipSeparators_length_le
      split at h
      · simp only [Option.some.injEq,Prod.mk.injEq] at h
        simp [← h.2,remaining,hf]
      · rename_i rule next hr
        have := Cursor.readRule_length_lt hr
        simp only [Option.some.injEq,Prod.mk.injEq] at h
        simp only [← h.2,remaining,hf,if_false,Bool.false_eq_true]
        omega

/-- Everything that is left, and the reader at its end. -/
def drain (r : Reader) : List (Except RuleError Rule) × Reader :=
  match _h : r.next? with
  | none => ([], r)
  | some (item, after) =>
    let rest := drain after
    (item :: rest.1, rest.2)
termination_by r.remaining
decreasing_by exact remaining_lt _h

end Reader

def collect : List (Except RuleError Rule) → Except RuleError (List Rule)
  | [] => .ok []
  | .error e :: _ => .error e
  | .ok r :: rest =>
    match collect rest with
    | .error e => .error e
    | .ok rules => .ok (r :: rules)

def readRules (text : String) : Except RuleError (List Rule) := collect (Reader.start text).drain.1

end LexAutomata.RuleFile
