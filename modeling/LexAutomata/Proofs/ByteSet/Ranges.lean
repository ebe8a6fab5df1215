import LexAutomata.ByteSet.Ranges
import LexAutomata.Proofs.Text.Legible

namespace LexAutomata.ByteSet

open Text (Legible Stops isDigit_of_mem_paddedDecimal paddedDecimal stops_nil stops_cons)

theorem runs_cover (bs : List UInt8) :
    (∀ r ∈ runs bs, r.1 ≤ r.2) ∧ ∀ x, x ∈ bs ↔ ∃ r ∈ runs bs, r.1 ≤ x ∧ x ≤ r.2 := by
  induction bs with
  | nil => simp [runs]
  | cons b bs ih =>
    obtain ⟨hordered,hcovered⟩ := ih
    have hself : ∀ x, x = b ↔ b ≤ x ∧ x ≤ b := by
      intro x
      rw [← UInt8.toNat_inj,UInt8.le_iff_toNat_le,UInt8.le_iff_toNat_le]
      omega
    rw [runs]
    cases hruns : runs bs with
    | nil =>
      simp only [hruns,List.not_mem_nil,false_and,exists_false,iff_false] at hcovered
      refine ⟨by simp,fun x => ?_⟩
      simp [hcovered,hself]
    | cons r rest =>
      obtain ⟨lo,hi⟩ := r
      simp only [hruns,List.forall_mem_cons] at hordered
      simp only [hruns,List.exists_mem_cons_iff] at hcovered
      dsimp only
      split
      case isTrue hnext =>
        -- `b` stands just before the first run, which grows to hold it
        have hgrown : ∀ x, b ≤ x ∧ x ≤ hi ↔ x = b ∨ lo ≤ x ∧ x ≤ hi := by
          intro x
          have hlohi := hordered.1
          simp only [← UInt8.toNat_inj,UInt8.le_iff_toNat_le] at hlohi ⊢
          omega
        refine ⟨?_,fun x => ?_⟩
        · rw [List.forall_mem_cons]
          exact ⟨((hgrown hi).mpr (.inr ⟨hordered.1,UInt8.le_refl hi⟩)).1,hordered.2⟩
        · rw [List.exists_mem_cons_iff,hgrown,List.mem_cons,hcovered,or_assoc]
      case isFalse hgap =>
        refine ⟨?_,fun x => ?_⟩
        · rw [List.forall_mem_cons,List.forall_mem_cons]
          exact ⟨UInt8.le_refl b,hordered⟩
        · rw [List.exists_mem_cons_iff,List.exists_mem_cons_iff,← hself,List.mem_cons,hcovered]

theorem test_iff_ranges {s : ByteSet} {b : UInt8} :
    s.test b = true ↔ ∃ r ∈ s.ranges, r.1 ≤ b ∧ b ≤ r.2 := by
  rw [ranges,← (runs_cover s.toList).2,mem_toList]

theorem ranges_injective : Function.Injective ranges := by
  intro s t h
  apply ext
  intro b
  rw [Bool.eq_iff_iff,test_iff_ranges,test_iff_ranges,h]

section Display

theorem length_code (b : UInt8) : (paddedDecimal 3 b.toNat).toList.length = 3 := by
  have hb := b.toNat_lt
  apply Text.length_paddedDecimal
  exact (Nat.length_toDigits_le_iff (by decide) (by decide)).mpr (by omega)

theorem byteText_cases (b : UInt8) :
    (∃ c : Char, c.toNat = b.toNat ∧ (byteText b).toList = [c]) ∨
      (byteText b).toList = '#' :: (paddedDecimal 3 b.toNat).toList := by
  unfold byteText
  split
  · exact .inl ⟨Char.ofUInt8 b,rfl,by simp⟩
  · exact .inr (by simp)

theorem not_stops_code (b : UInt8) (s : List Char) :
    ¬ Stops Char.isDigit ((paddedDecimal 3 b.toNat).toList ++ s) := by
  have hlength := length_code b
  have hdigits : ∀ c ∈ (paddedDecimal 3 b.toNat).toList, c.isDigit = true :=
    fun c => isDigit_of_mem_paddedDecimal
  cases hcode : (paddedDecimal 3 b.toNat).toList with
  | nil => simp [hcode] at hlength
  | cons c cs =>
    rw [List.cons_append,stops_cons,hdigits c (by simp [hcode])]
    exact Bool.noConfusion

/-- Where no digit follows, `#` alone is not taken for the beginning of a code. -/
theorem legible_byteText (b : UInt8) :
    Legible (Stops Char.isDigit) (fun b => (byteText b).toList) b := by
  intro c s t hs ht heq
  dsimp only at heq
  rcases byteText_cases b with ⟨x,hx,hb⟩ | hb <;> rcases byteText_cases c with ⟨y,hy,hc⟩ | hc
  · rw [hb,hc,List.cons_append,List.cons_append,List.cons.injEq] at heq
    exact ⟨UInt8.toNat_inj.mp (by rw [← hx,← hy,heq.1]),heq.2⟩
  · rw [hb,hc,List.cons_append,List.cons_append,List.cons.injEq,List.nil_append] at heq
    exact absurd (heq.2 ▸ hs) (not_stops_code c t)
  · rw [hb,hc,List.cons_append,List.cons_append,List.cons.injEq,List.nil_append] at heq
    exact absurd (heq.2.symm ▸ ht) (not_stops_code b s)
  · rw [hb,hc,List.cons_append,List.cons_append,List.cons.injEq] at heq
    obtain ⟨hcode,hst⟩ := List.append_inj heq.2 (by rw [length_code,length_code])
    have hvalue := Text.paddedDecimal_injective 3 (String.toList_inj.mp hcode)
    exact ⟨UInt8.toNat_inj.mp hvalue,hst⟩

/-- What would go on with a range. -/
def continuesRange (c : Char) : Bool := c.isDigit || c == '.'

theorem stops_isDigit_of_continuesRange {s : List Char} (h : Stops continuesRange s) :
    Stops Char.isDigit s := by
  intro c hc
  have hnone : continuesRange c = false := h c hc
  exact (Bool.or_eq_false_iff.mp hnone).1

theorem toList_rangeText (r : UInt8 × UInt8) :
    (rangeText r).toList =
      (byteText r.1).toList ++ if r.1 = r.2 then [] else ['.', '.'] ++ (byteText r.2).toList := by
  unfold rangeText
  split
  · simp
  · simp

/-- A second dot tells a range from a single byte, even if the byte is a dot. -/
theorem legible_rangeText (r : UInt8 × UInt8) :
    Legible (Stops continuesRange) (fun r => (rangeText r).toList) r := by
  intro q s t hs ht heq
  simp only [toList_rangeText,List.append_assoc] at heq
  have hbehind : ∀ (p : UInt8 × UInt8) u, Stops continuesRange u →
      Stops Char.isDigit ((if p.1 = p.2 then [] else ['.', '.'] ++ (byteText p.2).toList) ++ u) := by
    intro p u hu
    split
    · exact stops_isDigit_of_continuesRange hu
    · exact stops_cons.mpr (by decide)
  have hdots : ∀ u, ¬ Stops continuesRange ('.' :: u) := by
    intro u
    rw [stops_cons]
    decide
  obtain ⟨hfirst,hrest⟩ := legible_byteText r.1 q.1 _ _ (hbehind r s hs) (hbehind q t ht) heq
  split at hrest
  case isTrue hr =>
    split at hrest
    case isTrue hq => exact ⟨Prod.ext hfirst (by rw [← hr,← hq,hfirst]),hrest⟩
    case isFalse hq =>
      simp only [List.nil_append,List.cons_append] at hrest
      exact absurd (hrest ▸ hs) (hdots _)
  case isFalse hr =>
    split at hrest
    case isTrue hq =>
      simp only [List.nil_append,List.cons_append] at hrest
      exact absurd (hrest.symm ▸ ht) (hdots _)
    case isFalse hq =>
      simp only [List.cons_append,List.nil_append,List.cons.injEq,true_and] at hrest
      obtain ⟨hsecond,hst⟩ := legible_byteText r.2 q.2 s t (stops_isDigit_of_continuesRange hs)
        (stops_isDigit_of_continuesRange ht) hrest
      exact ⟨Prod.ext hfirst hsecond,hst⟩

theorem rangeText_ne_nil (r : UInt8 × UInt8) : (rangeText r).toList ≠ [] := by
  rw [toList_rangeText]
  rcases byteText_cases r.1 with ⟨c,_,hc⟩ | hc
  · simp [hc]
  · simp [hc]

theorem display_injective : Function.Injective display := by
  have hitems : ∀ rs : List (UInt8 × UInt8), Legible (· = [])
      (fun rs => [','].intercalate (rs.map fun r => (rangeText r).toList)) rs := by
    intro rs
    apply Legible.intercalate fun r _ => legible_rangeText r
    case hends =>
      rintro u rfl
      exact stops_nil
    case hsep =>
      intro u
      exact stops_cons.mpr (by decide)
    case hmore => simp
    case hitem =>
      intro r u h
      exact rangeText_ne_nil r (List.append_eq_nil_iff.mp h).1
  intro s t h
  have hbody : [','].intercalate (s.ranges.map fun r => (rangeText r).toList) =
      [','].intercalate (t.ranges.map fun r => (rangeText r).toList) := by
    have hchars := congrArg String.toList h
    simpa [display,List.map_map,Function.comp_def] using hchars
  exact ranges_injective ((hitems s.ranges).eq_of_code_eq rfl hbody)

end Display

end LexAutomata.ByteSet
