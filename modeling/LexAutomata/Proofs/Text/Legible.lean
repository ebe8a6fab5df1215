import LexAutomata.Text.Decimal
import Mathlib.Data.List.Basic

namespace LexAutomata.Text

section Codes

variable {α σ : Type} {ends stop : List σ → Prop} {code : α → List σ} {p : σ → Bool} {a : α} {as : List α}
  {sep : List σ}

/-- In front of what `ends` allows, only `a` is written like `a`, and it ends in one place only. -/
def Legible (ends : List σ → Prop) (code : α → List σ) (a : α) : Prop :=
  ∀ b s t, ends s → ends t → code a ++ s = code b ++ t → a = b ∧ s = t

/-- Does not go on with a `p`. -/
def Stops (p : σ → Bool) (s : List σ) : Prop := ∀ c ∈ s.head?, p c = false

theorem stops_nil : Stops p [] := fun _ h => nomatch h

theorem stops_cons {c : σ} {s : List σ} : Stops p (c :: s) ↔ p c = false := by simp [Stops]

theorem append_inj_of_stops {a b s t : List σ} (ha : ∀ c ∈ a, p c = true) (hb : ∀ c ∈ b, p c = true)
    (hs : Stops p s) (ht : Stops p t) (h : a ++ s = b ++ t) : a = b ∧ s = t := by
  have htake : ∀ {x y : List σ}, (∀ c ∈ x, p c = true) → Stops p y → (x ++ y).takeWhile p = x := by
    intro x y hx hy
    rw [List.takeWhile_append_of_pos hx]
    cases y with
    | nil => simp
    | cons c y => simp [stops_cons.mp hy]
  have hab : a = b := by rw [← htake ha hs,h,htake hb ht]
  subst hab
  exact ⟨rfl,List.append_cancel_left h⟩

theorem Legible.eq_of_code_eq (h : Legible ends code a) (hnil : ends []) {b : α}
    (heq : code a = code b) : a = b :=
  (h b [] [] hnil hnil (congrArg (· ++ []) heq)).1

theorem Legible.prepend (h : Legible ends code a) (sep : List σ) :
    Legible ends (fun b => sep ++ code b) a := by
  intro b s t hs ht heq
  apply h b s t hs ht
  simpa using heq

theorem Legible.flatMap (h : ∀ a ∈ as, Legible ends code a) (hends : ∀ s, stop s → ends s)
    (hnext : ∀ a s, ends (code a ++ s)) (hstop : ∀ a s, ¬ stop (code a ++ s)) :
    Legible stop (List.flatMap code) as := by
  have hrest : ∀ (bs : List α) s, stop s → ends (bs.flatMap code ++ s) := by
    intro bs s hs
    cases bs with
    | nil => exact hends s hs
    | cons b bs => simpa using hnext b (bs.flatMap code ++ s)
  induction as with
  | nil =>
    intro bs s t hs ht heq
    cases bs with
    | nil => exact ⟨rfl,heq⟩
    | cons b bs =>
      rw [List.flatMap_nil,List.nil_append,List.flatMap_cons,List.append_assoc] at heq
      exact absurd (heq ▸ hs) (hstop b _)
  | cons a as ih =>
    intro bs s t hs ht heq
    cases bs with
    | nil =>
      rw [List.flatMap_nil,List.nil_append,List.flatMap_cons,List.append_assoc] at heq
      exact absurd (heq.symm ▸ ht) (hstop a _)
    | cons b bs =>
      simp only [List.flatMap_cons,List.append_assoc] at heq
      obtain ⟨rfl,htail⟩ := h a List.mem_cons_self b _ _ (hrest as s hs) (hrest bs t ht) heq
      obtain ⟨rfl,hst⟩ := ih (fun c hc => h c (List.mem_cons_of_mem _ hc)) bs s t hs ht htail
      exact ⟨rfl,hst⟩

theorem intercalate_map_cons (sep : List σ) (code : α → List σ) (a : α) (as : List α) :
    sep.intercalate ((a :: as).map code) = code a ++ as.flatMap fun b => sep ++ code b := by
  induction as generalizing a with
  | nil => simp
  | cons b as ih =>
    rw [List.map_cons,List.intercalate_cons_of_ne_nil (by simp),ih b]
    simp

theorem Legible.intercalate (h : ∀ a ∈ as, Legible ends code a) (hends : ∀ s, stop s → ends s)
    (hsep : ∀ s, ends (sep ++ s)) (hmore : ∀ s, ¬ stop (sep ++ s)) (hitem : ∀ a s, ¬ stop (code a ++ s)) :
    Legible stop (fun bs => sep.intercalate (bs.map code)) as := by
  intro bs s t hs ht heq
  dsimp only at heq
  have hrest : ∀ (cs : List α) u, stop u → ends ((cs.flatMap fun c => sep ++ code c) ++ u) := by
    intro cs u hu
    cases cs with
    | nil => exact hends u hu
    | cons c cs => simpa using hsep (code c ++ ((cs.flatMap fun c => sep ++ code c) ++ u))
  cases as with
  | nil =>
    cases bs with
    | nil => exact ⟨rfl,heq⟩
    | cons b bs =>
      rw [intercalate_map_cons,List.append_assoc,List.map_nil,List.intercalate_nil,List.nil_append] at heq
      exact absurd (heq ▸ hs) (hitem b _)
  | cons a as =>
    cases bs with
    | nil =>
      rw [intercalate_map_cons,List.append_assoc,List.map_nil,List.intercalate_nil,List.nil_append] at heq
      exact absurd (heq.symm ▸ ht) (hitem a _)
    | cons b bs =>
      simp only [intercalate_map_cons,List.append_assoc] at heq
      obtain ⟨rfl,htail⟩ := h a List.mem_cons_self b _ _ (hrest as s hs) (hrest bs t ht) heq
      have hlater : Legible stop (List.flatMap fun c => sep ++ code c) as := by
        refine Legible.flatMap (fun c hc => (h c (List.mem_cons_of_mem _ hc)).prepend sep) hends ?_ ?_
        · intro c u
          simpa using hsep (code c ++ u)
        · intro c u
          simpa using hmore (code c ++ u)
      obtain ⟨rfl,hst⟩ := hlater bs s t hs ht htail
      exact ⟨rfl,hst⟩

/-- Parts without the mark `x` are told apart by a mark at the end of each. -/
theorem flatMap_concat_inj [DecidableEq σ] {x : σ} {ls ms : List (List σ)} (hl : ∀ l ∈ ls, x ∉ l)
    (hm : ∀ m ∈ ms, x ∉ m) (h : (ls.flatMap (· ++ [x])) = ms.flatMap (· ++ [x])) : ls = ms := by
  have hmark : ∀ s : List σ, Stops (fun c => decide (c ≠ x)) (x :: s) := fun s => by simp [stops_cons]
  have hinside : ∀ {l : List σ}, x ∉ l → ∀ c ∈ l, decide (c ≠ x) = true := by
    intro l hx c hc
    exact decide_eq_true fun hcx => hx (hcx ▸ hc)
  induction ls generalizing ms with
  | nil =>
    cases ms with
    | nil => rfl
    | cons m ms => simp at h
  | cons l ls ih =>
    cases ms with
    | nil => simp at h
    | cons m ms =>
      rw [List.forall_mem_cons] at hl hm
      simp only [List.flatMap_cons,List.append_assoc,List.singleton_append] at h
      obtain ⟨rfl,hrest⟩ := append_inj_of_stops (hinside hl.1) (hinside hm.1) (hmark _) (hmark _) h
      rw [ih hl.2 hm.2 (List.cons.inj hrest).2]

end Codes

section Numerals

theorem digitChar_inj : ∀ m < 16, ∀ n < 16, Nat.digitChar m = Nat.digitChar n → m = n := by decide

/-- What is no digit of the base stands in no numeral. -/
theorem notMem_toDigits {b : Nat} {c : Char} (hb : 1 < b) (h : ∀ d < b, Nat.digitChar d ≠ c) (n : Nat) :
    c ∉ Nat.toDigits b n := by
  have hpos : 0 < b := Nat.lt_of_succ_lt hb
  induction n using Nat.strongRecOn with
  | ind n ih =>
    rw [Nat.toDigits_eq_if hb]
    split
    case isTrue hlt => simpa using (h n hlt).symm
    case isFalse hge =>
      have hhigh : c ∉ Nat.toDigits b (n / b) := ih (n / b) (Nat.div_lt_self (by omega) hb)
      have hlow : c ≠ Nat.digitChar (n % b) := (h (n % b) (Nat.mod_lt n hpos)).symm
      simp [hhigh,hlow]

theorem toDigits_injective {b : Nat} (hb : 1 < b) (hsixteen : b ≤ 16) :
    Function.Injective (Nat.toDigits b) := by
  have hdigit : ∀ m n, m < b → n < b → Nat.digitChar m = Nat.digitChar n → m = n := fun m n hm hn =>
    digitChar_inj m (Nat.lt_of_lt_of_le hm hsixteen) n (Nat.lt_of_lt_of_le hn hsixteen)
  intro n
  induction n using Nat.strongRecOn with
  | ind n ih =>
    intro m h
    rw [Nat.toDigits_eq_if hb,Nat.toDigits_eq_if (n := m) hb] at h
    split at h
    case isTrue hn =>
      split at h
      case isTrue hm => exact hdigit n m hn hm (List.head_eq_of_cons_eq h)
      case isFalse hm => simpa using congrArg List.length h
    case isFalse hn =>
      split at h
      case isTrue hm => simpa using congrArg List.length h
      case isFalse hm =>
        have hpos : 0 < b := Nat.lt_of_succ_lt hb
        obtain ⟨hhigh,hlow⟩ := List.append_inj' h rfl
        have hdiv := ih (n / b) (Nat.div_lt_self (by omega) hb) hhigh
        have hmod := hdigit _ _ (Nat.mod_lt n hpos) (Nat.mod_lt m hpos) (List.head_eq_of_cons_eq hlow)
        rw [← Nat.div_add_mod n b,hdiv,hmod,Nat.div_add_mod]

theorem isDigit_of_mem_decimal {n : Nat} {c : Char} (h : c ∈ (decimal n).toList) : c.isDigit = true := by
  rw [decimal,String.toList_ofList] at h
  exact Nat.isDigit_of_mem_toDigits (by decide) (by decide) h

/-- A numeral ends where the digits do. -/
theorem legible_decimal (n : Nat) :
    Legible (Stops Char.isDigit) (fun n => (decimal n).toList) n := by
  intro m s t hs ht heq
  obtain ⟨hdigits,hst⟩ := append_inj_of_stops (fun c => isDigit_of_mem_decimal)
    (fun c => isDigit_of_mem_decimal) hs ht heq
  simp only [decimal,String.toList_ofList] at hdigits
  exact ⟨toDigits_injective (by decide) (by decide) hdigits,hst⟩

theorem decimal_injective : Function.Injective decimal := by
  intro m n h
  exact (legible_decimal m).eq_of_code_eq stops_nil (congrArg String.toList h)

theorem newline_notMem_decimal (n : Nat) : '\n' ∉ (decimal n).toList := fun h =>
  absurd (isDigit_of_mem_decimal h) (by decide)

theorem decimal_inj_of_append {before after : String} {m n : Nat}
    (h : before ++ decimal m ++ after = before ++ decimal n ++ after) : m = n := by
  have hchars := congrArg String.toList h
  simp only [String.toList_append,List.append_assoc,List.append_cancel_left_eq,
    List.append_cancel_right_eq] at hchars
  exact decimal_injective (String.toList_inj.mp hchars)

theorem isDigit_of_mem_paddedDecimal {width n : Nat} {c : Char}
    (h : c ∈ (paddedDecimal width n).toList) : c.isDigit = true := by
  simp only [paddedDecimal,String.toList_ofList,List.mem_append,List.mem_replicate] at h
  rcases h with ⟨_,rfl⟩ | h
  · decide
  · exact Nat.isDigit_of_mem_toDigits (by decide) (by decide) h

theorem length_paddedDecimal {width n : Nat} (h : (Nat.toDigits 10 n).length ≤ width) :
    (paddedDecimal width n).toList.length = width := by
  simp only [paddedDecimal,String.toList_ofList,List.length_append,List.length_replicate]
  omega

theorem paddedDecimal_injective (width : Nat) : Function.Injective (paddedDecimal width) := by
  have hvalue : ∀ n, Nat.ofDigitChars 10 (paddedDecimal width n).toList 0 = n := by
    intro n
    simp [paddedDecimal,Nat.ofDigitChars_append]
  intro m n h
  rw [← hvalue m,h,hvalue n]

end Numerals

/-- Texts without line feeds are told apart as lines. -/
theorem join_lines_inj {ls ms : List String} (hl : ∀ l ∈ ls, '\n' ∉ l.toList)
    (hm : ∀ m ∈ ms, '\n' ∉ m.toList)
    (h : String.join (ls.map (· ++ "\n")) = String.join (ms.map (· ++ "\n"))) : ls = ms := by
  have hparts : ∀ ks : List String, (String.join (ks.map (· ++ "\n"))).toList =
      (ks.map String.toList).flatMap (· ++ ['\n']) := by
    intro ks
    simp [List.flatMap_map]
  have hlists : ls.map String.toList = ms.map String.toList := by
    apply flatMap_concat_inj (x := '\n')
    · simpa using hl
    · simpa using hm
    · rw [← hparts,h,hparts]
  exact List.map_injective_iff.mpr (fun _ _ => String.toList_inj.mp) hlists

end LexAutomata.Text
