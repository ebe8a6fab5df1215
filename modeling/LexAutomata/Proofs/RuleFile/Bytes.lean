import LexAutomata.Proofs.RuleFile.Line

namespace LexAutomata.RuleFile

def encoding (cs : List Char) : List UInt8 := cs.flatMap String.utf8EncodeChar

/-- Scanning the bytes stops where scanning the characters does. -/
def ScansBytes (p : Char → Bool) : Prop :=
  ∀ cs, ((encoding cs).takeWhile fun b => p (Char.ofUInt8 b)) = encoding (cs.takeWhile p)

theorem utf8EncodeChar_of_lt {c : Char} (h : c.toNat < 128) :
    ∃ b, String.utf8EncodeChar c = [b] ∧ Char.ofUInt8 b = c := by
  have hsmall : c.val.toNat ≤ 127 := Nat.le_of_lt_succ h
  refine ⟨UInt8.ofNat c.val.toNat,by rw [String.utf8EncodeChar,if_pos hsmall],?_⟩
  apply Char.ext
  apply UInt32.toNat_inj.mp
  change (UInt8.ofNat c.val.toNat).toUInt32.toNat = c.val.toNat
  rw [UInt8.toNat_toUInt32,UInt8.toNat_ofNat']
  omega

theorem le_of_mem_utf8EncodeChar {c : Char} (h : 128 ≤ c.toNat) {b : UInt8}
    (hb : b ∈ String.utf8EncodeChar c) : 128 ≤ (Char.ofUInt8 b).toNat := by
  have hlarge : ¬ c.val.toNat ≤ 127 := Nat.not_le.mpr h
  have hbyte : 128 ≤ b.toNat := by
    rw [String.utf8EncodeChar,if_neg hlarge] at hb
    split at hb
    case isTrue =>
      simp only [List.mem_cons,List.not_mem_nil,or_false] at hb
      rcases hb with rfl | rfl <;> rw [UInt8.toNat_ofNat'] <;> omega
    case isFalse =>
      split at hb
      case isTrue =>
        simp only [List.mem_cons,List.not_mem_nil,or_false] at hb
        rcases hb with rfl | rfl | rfl <;> rw [UInt8.toNat_ofNat'] <;> omega
      case isFalse =>
        simp only [List.mem_cons,List.not_mem_nil,or_false] at hb
        rcases hb with rfl | rfl | rfl | rfl <;> rw [UInt8.toNat_ofNat'] <;> omega
  exact hbyte

theorem scansBytes_of_beyond_ascii {p : Char → Bool} {v : Bool}
    (h : ∀ c : Char, 128 ≤ c.toNat → p c = v) : ScansBytes p := by
  intro cs
  induction cs with
  | nil => rfl
  | cons c cs ih =>
    have hbytes : ∀ b ∈ String.utf8EncodeChar c, p (Char.ofUInt8 b) = p c := by
      intro b hb
      rcases Nat.lt_or_ge c.toNat 128 with hlt | hge
      · obtain ⟨d,hd,hc⟩ := utf8EncodeChar_of_lt hlt
        rw [hd,List.mem_singleton] at hb
        rw [hb,hc]
      · rw [h c hge,h _ (le_of_mem_utf8EncodeChar hge hb)]
    simp only [encoding,List.flatMap_cons] at ih ⊢
    cases hc : p c with
    | true =>
      rw [List.takeWhile_append_of_pos fun b hb => (hbytes b hb).trans hc,ih]
      simp [hc]
    | false =>
      obtain ⟨b,bs,hb⟩ := List.exists_cons_of_ne_nil (String.utf8EncodeChar_ne_nil (c := c))
      have hstop := hbytes b (hb ▸ List.mem_cons_self)
      simp [hb,hstop,hc]

theorem scansBytes_isBlank : ScansBytes isBlank := by
  refine scansBytes_of_beyond_ascii (v := false) fun c hc => ?_
  rw [← Bool.not_eq_true]
  intro h
  rcases isBlank_iff.mp h with rfl | rfl <;> exact absurd hc (by decide)

theorem scansBytes_isInLine : ScansBytes isInLine := by
  refine scansBytes_of_beyond_ascii (v := true) fun c hc => isInLine_iff.mpr ?_
  rintro (rfl | rfl) <;> exact absurd hc (by decide)

theorem scansBytes_isNameChar : ScansBytes isNameChar := by
  refine scansBytes_of_beyond_ascii (v := false) fun c hc => ?_
  rw [← Bool.not_eq_true]
  intro h
  have hle : ∀ d : Char, c ≤ d → c.toNat ≤ d.toNat := fun _ h => h
  rcases isNameChar_iff.mp h with ⟨_,hc'⟩ | ⟨_,hc'⟩ | ⟨_,hc'⟩ | rfl
  · exact absurd (Nat.le_trans hc (hle _ hc')) (by decide)
  · exact absurd (Nat.le_trans hc (hle _ hc')) (by decide)
  · exact absurd (Nat.le_trans hc (hle _ hc')) (by decide)
  · exact absurd hc (by decide)

end LexAutomata.RuleFile
