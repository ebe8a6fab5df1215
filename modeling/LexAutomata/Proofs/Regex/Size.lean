import LexAutomata.Proofs.Regex.Reading
import LexAutomata.Proofs.Text.Encoded

namespace LexAutomata.Regex

open Stack

/-- The nodes of the item. A bar is going to cost the two ends of a choice. -/
def Item.weight : Item → Nat
  | .opening => 0
  | .bar => 2
  | .fragment f => f.size

namespace Stack

def weight : List Item → Nat
  | [] => 0
  | item :: items => item.weight + weight items

/-- What the items cost in the end: where no fragment is on top the empty word takes two more nodes. -/
def cost (items : List Item) : Nat :=
  weight items +
    match items with
    | .fragment _ :: _ => 0
    | _ => 2

variable {acc f : Fragment} {mark item : Item} {items out : List Item} {s t : Stack}

@[simp] theorem cost_fragment (f : Fragment) (items : List Item) :
    cost (.fragment f :: items) = f.size + weight items := rfl

@[simp] theorem cost_bar (items : List Item) : cost (.bar :: items) = weight items + 4 := by
  simp only [cost,weight,Item.weight]
  omega

@[simp] theorem cost_opening (items : List Item) : cost (.opening :: items) = weight items + 2 := by
  simp only [cost,weight,Item.weight]
  omega

theorem weight_le_cost (items : List Item) : weight items ≤ cost items := Nat.le_add_right _ _

theorem exists_foldConcatOnto_eq_ok (h : foldConcatOnto acc items = .ok out) :
    ∃ f rest, out = .fragment f :: rest ∧ f.size + weight rest = acc.size + weight items := by
  induction items generalizing acc with
  | nil => cases h
  | cons item items ih =>
    cases item with
    | opening =>
      cases h
      exact ⟨acc,_,rfl,rfl⟩
    | bar =>
      cases h
      exact ⟨acc,_,rfl,rfl⟩
    | fragment f =>
      obtain ⟨g,rest,hout,hsize⟩ := ih h
      refine ⟨g,rest,hout,?_⟩
      rw [hsize,Fragment.size_concat,weight,Item.weight]
      omega

theorem exists_foldConcat_eq_ok (h : foldConcat items = .ok out) :
    ∃ f rest, out = .fragment f :: rest ∧ f.size + weight rest = cost items := by
  cases items with
  | nil => cases h
  | cons item items =>
    cases item with
    | opening =>
      cases h
      refine ⟨.emptyMatch,_,rfl,?_⟩
      rw [cost_opening,weight,Item.weight,Fragment.emptyMatch,Fragment.size_ofSet]
      omega
    | bar =>
      cases h
      refine ⟨.emptyMatch,_,rfl,?_⟩
      rw [cost_bar,weight,Item.weight,Fragment.emptyMatch,Fragment.size_ofSet]
      omega
    | fragment f => exact exists_foldConcatOnto_eq_ok h

theorem cost_foldChoiceOnto (h : foldChoiceOnto acc items = .ok out) :
    cost out = acc.size + weight items := by
  fun_induction foldChoiceOnto acc items with
  | case1 => cases h
  | case2 acc rest =>
    cases h
    rw [cost_fragment,weight,Item.weight]
    omega
  | case3 acc f rest ih =>
    rw [ih h,Fragment.size_choice]
    simp only [weight,Item.weight]
    omega
  | case4 => cases h
  | case5 => cases h
  | case6 => cases h

theorem cost_pushBar (h : s.pushBar = .ok t) : cost t.items = cost s.items + 4 := by
  unfold pushBar at h
  split at h
  · cases h
  · rename_i items hfold
    cases h
    obtain ⟨f,rest,rfl,hsize⟩ := exists_foldConcat_eq_ok hfold
    rw [cost_bar,← hsize,weight,Item.weight]

theorem cost_close (h : s.close = .ok t) : cost t.items = cost s.items := by
  unfold close at h
  split at h
  · cases h
  · rename_i items hconcat
    obtain ⟨f,rest,rfl,hsize⟩ := exists_foldConcat_eq_ok hconcat
    split at h
    · cases h
    · rename_i out hchoice
      cases h
      rw [← hsize]
      exact cost_foldChoiceOnto hchoice

theorem cost_modifyTop? {q : Quantifier} (h : s.modifyTop? q.apply = some t) :
    cost t.items ≤ cost s.items + 2 := by
  obtain ⟨items⟩ := s
  unfold modifyTop? at h
  split at h
  · rename_i f rest hitems
    cases h
    simp only at hitems
    rw [hitems]
    cases q <;> simp [Quantifier.apply] <;> omega
  · cases h

end Stack

namespace Reading

variable {r s : Reading} {t : Token} {ts : List Token} {f : Fragment}

theorem cost_step (h : r.step t = .ok s) : cost s.stack.items ≤ cost r.stack.items + 4 := by
  have hweight := weight_le_cost r.stack.items
  cases t with
  | atom set =>
    cases h
    rw [pushFragment,cost_fragment,Fragment.size_ofSet]
    omega
  | opening =>
    cases h
    rw [pushOpening,cost_opening]
    omega
  | bar =>
    simp only [step] at h
    split at h
    · cases h
    · rename_i stack hpush
      cases h
      exact (cost_pushBar hpush).le
  | closing =>
    simp only [step] at h
    split at h
    · cases h
    · split at h
      · cases h
      · rename_i stack hclose
        cases h
        have hsame := cost_close hclose
        dsimp only
        omega
  | quantifier q =>
    simp only [step] at h
    split at h
    · cases h
    · rename_i stack hmodify
      cases h
      have hle := cost_modifyTop? hmodify
      dsimp only
      omega

theorem cost_runs (h : r.Runs ts s) : cost s.stack.items ≤ cost r.stack.items + 4 * ts.length := by
  induction ts generalizing r with
  | nil =>
    cases h
    exact Nat.le_add_right _ _
  | cons t ts ih =>
    obtain ⟨m,hstep,hrest⟩ := h
    have hle := cost_step hstep
    have hlater := ih hrest
    rw [List.length_cons]
    omega

theorem cost_step_bar (h : r.step .bar = .ok s) : cost s.stack.items = cost r.stack.items + 4 := by
  simp only [step] at h
  split at h
  · cases h
  · rename_i stack hpush
    cases h
    exact cost_pushBar hpush

theorem cost_runs_bars {n : Nat} (h : r.Runs (List.replicate n .bar) s) :
    cost s.stack.items = cost r.stack.items + 4 * n := by
  induction n generalizing r with
  | zero =>
    cases h
    rfl
  | succ n ih =>
    obtain ⟨m,hstep,hrest⟩ := h
    rw [ih hrest,cost_step_bar hstep]
    omega

theorem size_of_finish (h : r.finish = .ok f) : f.size = cost r.stack.items := by
  unfold finish at h
  split at h
  · cases h
  · split at h
    · cases h
    · rename_i stack hclose
      rw [← cost_close hclose]
      obtain ⟨items⟩ := stack
      simp only [complete?] at h
      split at h
      · cases h
      · rename_i g hcomplete
        cases h
        split at hcomplete
        · cases hcomplete
          rfl
        · cases hcomplete

end Reading

theorem Cuts.length_le {bytes : List UInt8} {ts : List Token} (h : Cuts bytes ts) :
    ts.length ≤ bytes.length := by
  induction h with
  | nil => exact Nat.le_refl 0
  | bracket hread _ ih =>
    have hlt := readClass_length_lt hread
    simp only [List.length_cons]
    omega
  | @code rest ts _ ih =>
    have hle := byteCode_length_le rest
    simp only [List.length_cons]
    omega
  | byte _ _ _ ih =>
    simp only [List.length_cons]
    omega

theorem size_of_parse {text : String} {f : Fragment} (h : parse text = .ok f) :
    f.size ≤ 4 * text.utf8ByteSize + 2 := by
  obtain ⟨ts,hcuts,r,hruns,hfinish⟩ := parseBytes_eq_ok.mp (parse_eq_ok.mp h)
  have hstart : cost Reading.start.stack.items = 2 := rfl
  have hlength := hcuts.length_le
  rw [Text.length_toList_toUTF8] at hlength
  have hcost := Reading.cost_runs hruns
  rw [Reading.size_of_finish hfinish]
  omega

section Bars

open Ascii

/-- So many bars and nothing between them. -/
def bars (n : Nat) : String := String.ofList (List.replicate n '|')

theorem toList_toUTF8_bars (n : Nat) : (bars n).toUTF8.toList = List.replicate n pipe := by
  have hascii : ∀ b ∈ List.replicate n pipe, b < 0x80 := by
    intro b hb
    rw [List.eq_of_mem_replicate hb]
    decide
  have hbytes := Text.toList_toUTF8_of_ascii hascii
  rwa [List.map_replicate] at hbytes

theorem cuts_bars (n : Nat) : Cuts (List.replicate n pipe) (List.replicate n .bar) := by
  induction n with
  | zero => exact .nil
  | succ n ih => exact Cuts.byte (b := pipe) (by decide) (by decide) ih

theorem exists_derives_bars (n : Nat) : ∃ L, Derives .choice (List.replicate n .bar) L := by
  induction n with
  | zero => exact ⟨_,.lone .empty⟩
  | succ n ih =>
    obtain ⟨L,hL⟩ := ih
    exact ⟨_,.bar .empty hL⟩

theorem exists_parse_bars (n : Nat) : ∃ f, parse (bars n) = .ok f ∧ f.size = 4 * n + 2 := by
  obtain ⟨L,hL⟩ := exists_derives_bars n
  have hbytes := toList_toUTF8_bars n
  have hdenotes : Denotes (bars n).toUTF8.toList L := ⟨_,hbytes ▸ cuts_bars n,hL⟩
  obtain ⟨f,hf,_,_⟩ := parse_of_denotes hdenotes
  obtain ⟨ts,hcuts,r,hruns,hfinish⟩ := parseBytes_eq_ok.mp (parse_eq_ok.mp hf)
  -- the bars can be cut in one way only
  have htokens : ts = List.replicate n .bar := by
    have hscan : ∀ {bytes us}, Cuts bytes us → (Token.scan bytes).lexemes.map (·.token) = us :=
      fun h => (Token.cuts_iff.mp h).2
    rw [hbytes] at hcuts
    exact (hscan hcuts).symm.trans (hscan (cuts_bars n))
  rw [htokens] at hruns
  refine ⟨f,hf,?_⟩
  rw [Reading.size_of_finish hfinish,Reading.cost_runs_bars hruns,Nat.add_comm]
  rfl

end Bars

/-- A parsed expression of `n` bytes has at most `4 * n + 2` nodes, and `n` bars have no fewer. -/
theorem parse_size :
    (∀ text f, parse text = .ok f → f.size ≤ 4 * text.utf8ByteSize + 2) ∧
      ∀ n, (bars n).utf8ByteSize = n ∧ ∃ f, parse (bars n) = .ok f ∧ f.size = 4 * n + 2 := by
  refine ⟨fun text f => size_of_parse,fun n => ⟨?_,exists_parse_bars n⟩⟩
  rw [← Text.length_toList_toUTF8,toList_toUTF8_bars,List.length_replicate]

/-- The empty alternative in front of the closing and the repetition take two nodes each, the bar takes
another two for the choice. -/
theorem parse_size_of_empty_alternative :
    ∃ f, parse "(a|)*" = .ok f ∧ f.size = 8 ∧ f.size ≤ 4 * "(a|)*".utf8ByteSize + 2 := by
  have hsize : (parse "(a|)*").toOption.map Fragment.size = some 8 := by decide +kernel
  obtain ⟨f,hf,hnodes⟩ := Option.map_eq_some_iff.mp hsize
  have hparse : parse "(a|)*" = .ok f := by
    cases hresult : parse "(a|)*" with
    | error e =>
      rw [hresult] at hf
      cases hf
    | ok g =>
      rw [hresult] at hf
      cases hf
      rfl
  exact ⟨f,hparse,hnodes,parse_size.1 _ f hparse⟩

end LexAutomata.Regex
