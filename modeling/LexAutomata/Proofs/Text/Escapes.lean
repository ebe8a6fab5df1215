import LexAutomata.Text.Quoted
import LexAutomata.Proofs.Text.Legible

namespace LexAutomata.Text

section Escapes

variable {short : Char → Char} {long : Char → List Char → Prop} {esc : Char → List Char} {c d : Char}

/-- What may stand for `c` between quotation marks: the character, a backslash and a letter, or a backslash
and the letter `u` in front of a longer name. -/
inductive Escaped (short : Char → Char) (long : Char → List Char → Prop) (c : Char) : List Char → Prop
  | plain (hslash : c ≠ '\\') (hmark : c ≠ '"') : Escaped short long c [c]
  | short {e : Char} (he : e ≠ 'u') (hc : short e = c) : Escaped short long c ['\\', e]
  | long {name : List Char} (hname : long c name) : Escaped short long c ('\\' :: 'u' :: name)

/-- Where the longer names are legible, all escapes are. -/
theorem legible_of_escaped (hesc : ∀ c, Escaped short long c (esc c))
    (hlong : ∀ c d m n s t, long c m → long d n → m ++ s = n ++ t → c = d ∧ s = t) (c : Char) :
    Legible (fun _ => True) esc c := by
  intro d s t _ _ heq
  have hc := hesc c
  have hd := hesc d
  generalize esc c = u at hc heq
  generalize esc d = v at hd heq
  cases hc with
  | plain hslash hmark =>
    cases hd with
    | plain hslash' hmark' => simpa using heq
    | short he' hd' => simp [hslash] at heq
    | long hname' => simp [hslash] at heq
  | short he hc =>
    cases hd with
    | plain hslash' hmark' => simp [hslash'.symm] at heq
    | short he' hd' =>
      simp only [List.cons_append,List.nil_append,List.cons.injEq,true_and] at heq
      exact ⟨by rw [← hc,heq.1,hd'],heq.2⟩
    | long hname' => simp [he] at heq
  | long hname =>
    cases hd with
    | plain hslash' hmark' => simp [hslash'.symm] at heq
    | short he' hd' => simp [he'.symm] at heq
    | long hname' => exact hlong c d _ _ s t hname hname' (by simpa using heq)

/-- A text written between quotation marks ends at the second mark. -/
theorem legible_between_marks {write : String → String} (hesc : ∀ c, Escaped short long c (esc c))
    (hlong : ∀ c d m n s t, long c m → long d n → m ++ s = n ++ t → c = d ∧ s = t)
    (hwrite : ∀ s, (write s).toList = '"' :: (s.toList.flatMap esc ++ ['"'])) (s : String) :
    Legible (fun _ => True) (fun s => (write s).toList) s := by
  have hhead : ∀ c s, (esc c ++ s).head? ≠ some '"' := by
    intro c s
    have hc := hesc c
    generalize esc c = u at hc
    cases hc with
    | plain hslash hmark => simpa using hmark
    | short he hc => simp
    | long hname => simp
  have hchars : Legible (fun s => s.head? = some '"') (List.flatMap esc) s.toList :=
    Legible.flatMap (fun c _ => legible_of_escaped hesc hlong c) (fun _ _ => trivial)
      (fun _ _ => trivial) hhead
  intro r u v _ _ heq
  simp only [hwrite,List.cons_append,List.append_assoc,List.cons.injEq,true_and] at heq
  obtain ⟨hsr,huv⟩ := hchars r.toList _ _ rfl rfl heq
  exact ⟨String.toList_inj.mp hsr,(List.cons.inj huv).2⟩

end Escapes

section Quoted

/-- The character behind a backslash and a letter. -/
def shortEscape : Char → Char
  | '0' => '\x00'
  | 't' => '\t'
  | 'r' => '\r'
  | 'n' => '\n'
  | c => c

/-- The code point between braces. -/
def CodeName (c : Char) (name : List Char) : Prop :=
  name = '\x7b' :: (Nat.toDigits 16 c.toNat ++ ['\x7d'])

theorem codeName_inj (c d : Char) (m n s t : List Char) (hm : CodeName c m) (hn : CodeName d n)
    (h : m ++ s = n ++ t) : c = d ∧ s = t := by
  have hdigits : ∀ k : Nat, ∀ x ∈ Nat.toDigits 16 k, decide (x ≠ '\x7d') = true := by
    intro k x hx
    apply decide_eq_true
    rintro rfl
    exact notMem_toDigits (by decide) (by decide) k hx
  rw [hm,hn] at h
  simp only [List.cons_append,List.append_assoc,List.nil_append,List.cons.injEq,true_and] at h
  obtain ⟨hcode,hst⟩ := append_inj_of_stops (hdigits _) (hdigits _) (stops_cons.mpr (by decide))
    (stops_cons.mpr (by decide)) h
  have hnat : c.toNat = d.toNat := toDigits_injective (by decide) (by decide) hcode
  exact ⟨Char.toNat_inj.mp hnat,(List.cons.inj hst).2⟩

theorem escaped_quoteChar (c : Char) : Escaped shortEscape CodeName c (quoteChar '"' c) := by
  unfold quoteChar
  split
  case isTrue h => exact .short (by decide) h.symm
  split
  case isTrue h => exact .short (by decide) h.symm
  split
  case isTrue h => exact .short (by decide) h.symm
  split
  case isTrue h => exact .short (by decide) h.symm
  split
  case isTrue h =>
    rcases h with rfl | rfl
    · exact .short (by decide) rfl
    · exact .short (by decide) rfl
  case isFalse hmark =>
    rw [not_or] at hmark
    split
    · exact .long rfl
    · exact .plain hmark.1 hmark.2

theorem toList_quoted (s : String) :
    (quoted s).toList = '"' :: (s.toList.flatMap (quoteChar '"') ++ ['"']) := by
  simp [quoted]

theorem legible_quoted (s : String) : Legible (fun _ => True) (fun s => (quoted s).toList) s :=
  legible_between_marks escaped_quoteChar codeName_inj toList_quoted s

theorem newline_notMem_quoted (s : String) : '\n' ∉ (quoted s).toList := by
  have hcode : ∀ k, '\n' ∉ Nat.toDigits 16 k := notMem_toDigits (by decide) (by decide)
  have hchar : ∀ c, '\n' ∉ quoteChar '"' c := by
    intro c
    unfold quoteChar codeEscape
    split_ifs with h0 ht hr hn hmark hcodes
    · decide
    · decide
    · decide
    · decide
    · simp [Ne.symm hn]
    · simp [hcode]
    · simp [Ne.symm hn]
  simp [toList_quoted,hchar]

end Quoted

end LexAutomata.Text
