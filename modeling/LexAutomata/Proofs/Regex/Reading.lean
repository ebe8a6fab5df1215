import LexAutomata.Regex.Parse
import LexAutomata.Proofs.Regex.Grammar

namespace LexAutomata.Regex

open Stack

/-- Whether a concatenation ends at the item. -/
def Item.IsMark : Item → Prop
  | .fragment _ => False
  | _ => True

theorem Quantifier.built_apply (q : Quantifier) {f : Fragment} (h : f.Built) : (q.apply f).Built := by
  cases q with
  | optional => exact h.optional
  | star => exact h.star
  | plus => exact h.plus

theorem Quantifier.language_apply (q : Quantifier) {f : Fragment} (h : f.Built) :
    (q.apply f).language = q.language f.language := by
  cases q with
  | optional => exact Fragment.language_optional h.wellFormed
  | star => exact Fragment.language_star h.wellFormed
  | plus => exact Fragment.language_plus h.wellFormed

namespace Reading

def Runs (r : Reading) : List Token → Reading → Prop
  | [], s => r = s
  | t :: ts, s => ∃ m, r.step t = .ok m ∧ Runs m ts s

theorem runs_append {r s : Reading} {ts us : List Token} :
    r.Runs (ts ++ us) s ↔ ∃ m, r.Runs ts m ∧ m.Runs us s := by
  induction ts generalizing r with
  | nil =>
    constructor
    · intro h
      exact ⟨r,rfl,h⟩
    · intro hfrom
      obtain ⟨m,hm,h⟩ := hfrom
      rw [show r = m from hm]
      exact h
  | cons t ts ih =>
    constructor
    · intro hfrom
      obtain ⟨m,hstep,hrest⟩ := hfrom
      obtain ⟨k,hfirst,hlast⟩ := ih.mp hrest
      exact ⟨k,⟨m,hstep,hfirst⟩,hlast⟩
    · intro hfrom
      obtain ⟨k,⟨m,hstep,hfirst⟩,hlast⟩ := hfrom
      exact ⟨m,hstep,ih.mpr ⟨k,hfirst,hlast⟩⟩

theorem run_eq_ok {r s : Reading} {xs : List Lexeme} :
    r.run xs = .ok s ↔ r.Runs (xs.map (·.token)) s := by
  induction xs generalizing r with
  | nil => exact ⟨Except.ok.inj,congrArg Except.ok⟩
  | cons x xs ih =>
    rw [run,List.map_cons]
    cases hstep : r.step x.token with
    | error c =>
      constructor
      · intro h
        cases h
      · intro hfrom
        obtain ⟨m,hm,_⟩ := hfrom
        rw [hstep] at hm
        cases hm
    | ok m =>
      dsimp only
      rw [ih]
      constructor
      · intro h
        exact ⟨m,hstep,h⟩
      · intro hfrom
        obtain ⟨k,hk,h⟩ := hfrom
        rw [hstep] at hk
        cases hk
        exact h

end Reading

section Folds

/-- The language of the fragments above a mark, the top one read last. -/
def joined (fs : List Fragment) : Language UInt8 := (fs.reverse.map Fragment.language).prod

theorem joined_cons (f : Fragment) (fs : List Fragment) : joined (f :: fs) = joined fs * f.language := by
  simp [joined]

theorem foldConcatOnto_fragments {fs : List Fragment} (hfs : ∀ f ∈ fs, f.Built) {acc : Fragment}
    (hacc : acc.Built) {mark : Item} (hmark : mark.IsMark) (rest : List Item) :
    ∃ f : Fragment, f.Built ∧ f.language = joined fs * acc.language ∧
      foldConcatOnto acc (fs.map .fragment ++ mark :: rest) = .ok (.fragment f :: mark :: rest) := by
  induction fs generalizing acc with
  | nil =>
    refine ⟨acc,hacc,by simp [joined],?_⟩
    cases mark with
    | fragment f => exact hmark.elim
    | opening => rfl
    | bar => rfl
  | cons g fs ih =>
    have hg := hfs g List.mem_cons_self
    obtain ⟨f,hf,hlanguage,hfold⟩ :=
      ih (fun f hf => hfs f (List.mem_cons_of_mem _ hf)) (hg.concat hacc)
    refine ⟨f,hf,?_,hfold⟩
    rw [hlanguage,Fragment.language_concat hg.wellFormed,joined_cons,mul_assoc]

theorem foldConcat_fragments {fs : List Fragment} (hfs : ∀ f ∈ fs, f.Built) {mark : Item}
    (hmark : mark.IsMark) (rest : List Item) :
    ∃ f : Fragment, f.Built ∧ f.language = joined fs ∧
      foldConcat (fs.map .fragment ++ mark :: rest) = .ok (.fragment f :: mark :: rest) := by
  cases fs with
  | nil =>
    refine ⟨.emptyMatch,.emptyMatch,?_,?_⟩
    · exact (Fragment.language_ofSet _).trans ByteSet.language_empty
    · cases mark with
      | fragment f => exact hmark.elim
      | opening => rfl
      | bar => rfl
  | cons g fs =>
    obtain ⟨f,hf,hlanguage,hfold⟩ := foldConcatOnto_fragments
      (fun f hf => hfs f (List.mem_cons_of_mem _ hf)) (hfs g List.mem_cons_self) hmark rest
    exact ⟨f,hf,hlanguage.trans (joined_cons g fs).symm,hfold⟩

end Folds

/-- What running the tokens of a phrase of language `L` does: it pushes one fragment for an item, the
fragments of a sequence, and for alternatives what the folds turn into one fragment. -/
def Pushes (ts : List Token) (L : Language UInt8) : Phrase → Prop
  | .choice => ∀ r : Reading, (∃ mark rest, mark.IsMark ∧ r.stack.items = mark :: rest) →
      ∃ s : Reading, ∃ f : Fragment, ∃ items, r.Runs ts s ∧ s.depth = r.depth ∧ f.Built ∧
        f.language = L ∧ foldConcat s.stack.items = .ok items ∧
        foldChoice items = foldChoiceOnto f r.stack.items
  | .sequence => ∀ r : Reading, ∃ fs : List Fragment, (∀ f ∈ fs, f.Built) ∧ joined fs = L ∧
      r.Runs ts ⟨r.depth, ⟨fs.map .fragment ++ r.stack.items⟩⟩
  | _ => ∀ r : Reading, ∃ f : Fragment, f.Built ∧ f.language = L ∧
      r.Runs ts ⟨r.depth, r.stack.pushFragment f⟩

theorem pushes_of_derives {p : Phrase} {ts : List Token} {L : Language UInt8} (h : Derives p ts L) :
    Pushes ts L p := by
  induction h with
  | lone _ ih =>
    intro r hfrom
    obtain ⟨mark,rest,hmark,hitems⟩ := hfrom
    obtain ⟨fs,hfs,hjoined,hruns⟩ := ih r
    obtain ⟨f,hf,hlanguage,hfold⟩ := foldConcat_fragments hfs hmark rest
    refine ⟨_,f,.fragment f :: mark :: rest,hruns,rfl,hf,hlanguage.trans hjoined,?_,?_⟩
    · rw [hitems]
      exact hfold
    · rw [hitems]
      rfl
  | @bar ts us L M _ _ ihfirst ihrest =>
    intro r hfrom
    obtain ⟨mark,rest,hmark,hitems⟩ := hfrom
    obtain ⟨fs,hfs,hjoined,hruns⟩ := ihfirst r
    obtain ⟨g,hg,hlanguage,hfold⟩ := foldConcat_fragments hfs hmark rest
    let m : Reading := ⟨r.depth, ⟨.bar :: .fragment g :: mark :: rest⟩⟩
    obtain ⟨s,f,items,hlater,hdepth,hf,hflanguage,hconcat,hchoice⟩ :=
      ihrest m ⟨.bar,_,trivial,rfl⟩
    have hbar : Reading.step ⟨r.depth, ⟨fs.map .fragment ++ r.stack.items⟩⟩ .bar = .ok m := by
      simp only [Reading.step,pushBar,hitems,hfold]
      rfl
    refine ⟨s,g.choice f,items,?_,hdepth,hg.choice hf,?_,hconcat,?_⟩
    · exact Reading.runs_append.mpr ⟨_,hruns,m,hbar,hlater⟩
    · rw [Fragment.language_choice hg.wellFormed hf.wellFormed,hlanguage,hjoined,hflanguage]
    · rw [hchoice,hitems]
      rfl
  | empty =>
    intro r
    exact ⟨[],by simp,by simp [joined],rfl⟩
  | cons _ _ ihfirst ihrest =>
    intro r
    obtain ⟨f,hf,hlanguage,hruns⟩ := ihfirst r
    obtain ⟨fs,hfs,hjoined,hlater⟩ := ihrest ⟨r.depth, r.stack.pushFragment f⟩
    refine ⟨fs ++ [f],?_,?_,?_⟩
    · intro g hg
      rcases List.mem_append.mp hg with hg | hg
      · exact hfs g hg
      · rw [List.mem_singleton.mp hg]
        exact hf
    · rw [← hlanguage,← hjoined]
      simp [joined]
    · refine Reading.runs_append.mpr ⟨_,hruns,?_⟩
      simpa [pushFragment] using hlater
  | plain _ ih => exact ih
  | repeated q _ ih =>
    intro r
    obtain ⟨f,hf,hlanguage,hruns⟩ := ih r
    refine ⟨q.apply f,q.built_apply hf,?_,?_⟩
    · rw [q.language_apply hf,hlanguage]
    · exact Reading.runs_append.mpr ⟨_,hruns,_,rfl,rfl⟩
  | set s =>
    intro r
    exact ⟨.ofSet s,.ofSet s,Fragment.language_ofSet s,_,rfl,rfl⟩
  | @group ts L _ ih =>
    intro r
    let m : Reading := ⟨r.depth + 1, r.stack.pushOpening⟩
    obtain ⟨s,f,items,hruns,hdepth,hf,hlanguage,hconcat,hchoice⟩ := ih m ⟨.opening,_,trivial,rfl⟩
    have hclose : s.step .closing = .ok ⟨r.depth, r.stack.pushFragment f⟩ := by
      have hfold : foldChoice items = .ok (.fragment f :: r.stack.items) := hchoice
      have hopen : s.depth = r.depth + 1 := hdepth
      simp only [Reading.step,close,hconcat,hfold,hopen]
      rfl
    exact ⟨f,hf,hlanguage,m,rfl,Reading.runs_append.mpr ⟨s,hruns,_,hclose,rfl⟩⟩

/-- The stack after some tokens, with the groups open on it: between the marks each fragment stands for
the tokens of an item, and a bar has the fragment of a sequence below it. -/
inductive Pending : Nat → List Item → List Token → Prop where
  | start : Pending 0 [.opening] []
  | opening {d : Nat} {items : List Item} {ts : List Token} :
      Pending d items ts → Pending (d + 1) (.opening :: items) (ts ++ [.opening])
  | fragment {d : Nat} {items : List Item} {ts us : List Token} {L : Language UInt8} (f : Fragment) :
      Pending d items ts → Derives .item us L → Pending d (.fragment f :: items) (ts ++ us)
  | bar {d : Nat} {mark : Item} {items : List Item} {ts us : List Token} {L : Language UInt8}
      (f : Fragment) : mark.IsMark → Pending d (mark :: items) ts → Derives .sequence us L →
      Pending d (.bar :: .fragment f :: mark :: items) (ts ++ us ++ [.bar])

namespace Pending

variable {d : Nat} {items : List Item} {ts us : List Token} {M : Language UInt8}

theorem foldConcatOnto (h : Pending d items ts) (acc : Fragment) (hacc : Derives .sequence us M) :
    ∃ f mark rest vs ws L, foldConcatOnto acc items = .ok (.fragment f :: mark :: rest) ∧
      mark.IsMark ∧ Pending d (mark :: rest) vs ∧ Derives .sequence ws L ∧ ts ++ us = vs ++ ws := by
  induction h generalizing acc us M with
  | start => exact ⟨acc,.opening,[],[],us,M,rfl,trivial,.start,hacc,rfl⟩
  | @opening d items ts h _ =>
    exact ⟨acc,.opening,items,_,us,M,rfl,trivial,h.opening,hacc,rfl⟩
  | @fragment d items ts ws L f _ hitem ih =>
    obtain ⟨g,mark,rest,vs,xs,N,hfold,hmark,hpending,hderives,heq⟩ :=
      ih (f.concat acc) (hitem.cons hacc)
    refine ⟨g,mark,rest,vs,xs,N,hfold,hmark,hpending,hderives,?_⟩
    rw [List.append_assoc,heq]
  | @bar d mark items ts ws L f hmark h hsequence _ =>
    exact ⟨acc,.bar,_,_,us,M,rfl,trivial,.bar f hmark h hsequence,hacc,rfl⟩

theorem foldConcat (h : Pending d items ts) :
    ∃ f mark rest vs ws L, foldConcat items = .ok (.fragment f :: mark :: rest) ∧
      mark.IsMark ∧ Pending d (mark :: rest) vs ∧ Derives .sequence ws L ∧ ts = vs ++ ws := by
  cases h with
  | start => exact ⟨.emptyMatch,.opening,[],[],[],1,rfl,trivial,.start,.empty,rfl⟩
  | @opening d items ts h =>
    exact ⟨.emptyMatch,.opening,items,_,[],1,rfl,trivial,h.opening,.empty,by simp⟩
  | @fragment _ items ts us L f h hitem =>
    obtain ⟨g,mark,rest,vs,ws,N,hfold,hmark,hpending,hderives,heq⟩ :=
      h.foldConcatOnto f (hitem.cons .empty)
    refine ⟨g,mark,rest,vs,ws,N,hfold,hmark,hpending,hderives,?_⟩
    rw [← heq,List.append_nil]
  | @bar _ mark items ts us L f hmark h hsequence =>
    exact ⟨.emptyMatch,.bar,_,_,[],1,rfl,trivial,.bar f hmark h hsequence,.empty,by simp⟩

theorem foldChoiceOnto {mark : Item} (h : Pending d (mark :: items) ts) (hmark : mark.IsMark)
    (acc : Fragment) (hacc : Derives .choice us M) :
    ∃ f below vs ws L, foldChoiceOnto acc (mark :: items) = .ok (.fragment f :: below) ∧
      Pending d (.opening :: below) vs ∧ Derives .choice ws L ∧ ts ++ us = vs ++ ws := by
  generalize hall : mark :: items = all at h ⊢
  induction h generalizing mark items acc us M with
  | start => exact ⟨acc,[],[],us,M,rfl,.start,hacc,rfl⟩
  | @opening d under ts h _ => exact ⟨acc,under,_,us,M,rfl,h.opening,hacc,rfl⟩
  | fragment f _ _ _ =>
    cases hall
    exact hmark.elim
  | @bar d inner under ts ws L f hinner h hsequence ih =>
    obtain ⟨g,below,vs,xs,N,hfold,hpending,hderives,heq⟩ :=
      ih hinner (f.choice acc) (hsequence.bar hacc) rfl
    refine ⟨g,below,vs,xs,N,hfold,hpending,hderives,?_⟩
    rw [← heq]
    simp

theorem close {s : Stack} (h : Pending d s.items ts) :
    ∃ f below vs ws L, s.close = .ok ⟨.fragment f :: below⟩ ∧ Pending d (.opening :: below) vs ∧
      Derives .choice ws L ∧ ts = vs ++ ws := by
  obtain ⟨f,mark,rest,vs,ws,L,hconcat,hmark,hpending,hsequence,heq⟩ := h.foldConcat
  obtain ⟨g,below,xs,ys,N,hchoice,hrest,hderives,hsplit⟩ :=
    hpending.foldChoiceOnto hmark f hsequence.lone
  refine ⟨g,below,xs,ys,N,?_,hrest,hderives,heq.trans hsplit⟩
  have hfold : foldChoice (.fragment f :: mark :: rest) = .ok (.fragment g :: below) := hchoice
  simp only [Stack.close,hconcat,hfold]

theorem step {r s : Reading} {t : Token} (h : Pending r.depth r.stack.items ts)
    (hstep : r.step t = .ok s) : Pending s.depth s.stack.items (ts ++ [t]) := by
  cases t with
  | atom set =>
    cases hstep
    exact h.fragment _ (.plain (.set set))
  | opening =>
    cases hstep
    exact h.opening
  | bar =>
    obtain ⟨f,mark,rest,vs,ws,L,hconcat,hmark,hpending,hsequence,heq⟩ := h.foldConcat
    simp only [Reading.step,pushBar,hconcat] at hstep
    cases hstep
    rw [heq]
    exact .bar f hmark hpending hsequence
  | closing =>
    obtain ⟨f,below,vs,ws,L,hclose,hpending,hderives,heq⟩ := h.close
    simp only [Reading.step,hclose] at hstep
    split at hstep
    · cases hstep
    · cases hstep
      rename_i hdepth
      generalize r.depth = d at hdepth hpending
      cases hpending with
      | start => exact absurd rfl hdepth
      | @opening d _ xs hbelow =>
        rw [heq]
        have hgroup := hbelow.fragment f (.plain (.group hderives))
        simpa using hgroup
  | quantifier q =>
    simp only [Reading.step] at hstep
    split at hstep
    · cases hstep
    · rename_i stack hmodify
      cases hstep
      obtain ⟨depth,⟨items⟩⟩ := r
      simp only at h
      rw [modifyTop?] at hmodify
      cases h with
      | fragment f hbelow hitem =>
        cases hmodify
        rw [List.append_assoc]
        exact hbelow.fragment _ (hitem.repeated q)
      | start => cases hmodify
      | opening => cases hmodify
      | bar => cases hmodify

theorem runs {r s : Reading} (h : Pending r.depth r.stack.items ts) (hruns : r.Runs us s) :
    Pending s.depth s.stack.items (ts ++ us) := by
  induction us generalizing r ts with
  | nil =>
    cases hruns
    rwa [List.append_nil]
  | cons t us ih =>
    obtain ⟨m,hstep,hrest⟩ := hruns
    have hall := ih (h.step hstep) hrest
    rwa [List.append_assoc,List.singleton_append] at hall

end Pending

theorem parseBytes_eq_ok {bytes : List UInt8} {f : Fragment} :
    parseBytes bytes = .ok f ↔
      ∃ ts, Cuts bytes ts ∧ ∃ r, Reading.start.Runs ts r ∧ r.finish = .ok f := by
  have hcuts : ∀ ts, Cuts bytes ts ↔ (Token.scan bytes).complete = true ∧
      (Token.scan bytes).lexemes.map (·.token) = ts := fun _ => Token.cuts_iff
  constructor
  · intro h
    unfold parseBytes at h
    cases hrun : Reading.start.run (Token.scan bytes).lexemes with
    | error e => simp [hrun] at h
    | ok r =>
      have hcomplete : (Token.scan bytes).complete = true := by
        cases hc : (Token.scan bytes).complete with
        | true => rfl
        | false => simp [hrun,hc] at h
      have hfinish : r.finish = .ok f := by
        cases hf : r.finish with
        | error c => simp [hrun,hcomplete,hf] at h
        | ok g => simpa [hrun,hcomplete,hf] using h
      exact ⟨_,(hcuts _).mpr ⟨hcomplete,rfl⟩,r,Reading.run_eq_ok.mp hrun,hfinish⟩
  · intro hfrom
    obtain ⟨ts,hts,r,hruns,hfinish⟩ := hfrom
    obtain ⟨hcomplete,heq⟩ := (hcuts ts).mp hts
    have hrun := Reading.run_eq_ok.mpr (heq ▸ hruns)
    simp [parseBytes,hrun,hcomplete,hfinish]

theorem parse_eq_ok {text : String} {f : Fragment} :
    parse text = .ok f ↔ parseBytes text.toUTF8.toList = .ok f := by
  unfold parse
  cases parseBytes text.toUTF8.toList with
  | error e => simp
  | ok g => simp

theorem parse_of_denotes {text : String} {L : Language UInt8} (h : Denotes text.toUTF8.toList L) :
    ∃ f : Fragment, parse text = .ok f ∧ f.Built ∧ f.language = L := by
  obtain ⟨ts,hcuts,hderives⟩ := h
  obtain ⟨s,f,items,hruns,hdepth,hf,hlanguage,hconcat,hchoice⟩ :=
    pushes_of_derives hderives Reading.start ⟨.opening,[],trivial,rfl⟩
  have hfold : foldChoice items = .ok [.fragment f] := hchoice
  have hzero : s.depth = 0 := hdepth
  have hfinish : s.finish = .ok f := by
    simp [Reading.finish,hzero,close,hconcat,hfold,complete?]
  exact ⟨f,parse_eq_ok.mpr (parseBytes_eq_ok.mpr ⟨ts,hcuts,s,hruns,hfinish⟩),hf,hlanguage⟩

theorem exists_denotes_of_parse {text : String} {f : Fragment} (h : parse text = .ok f) :
    ∃ L, Denotes text.toUTF8.toList L := by
  obtain ⟨ts,hcuts,r,hruns,hfinish⟩ := parseBytes_eq_ok.mp (parse_eq_ok.mp h)
  have hpending : Pending r.depth r.stack.items ([] ++ ts) := Pending.start.runs hruns
  have hdepth : r.depth = 0 := by
    cases hd : r.depth with
    | zero => rfl
    | succ d => simp [Reading.finish,hd] at hfinish
  rw [hdepth,List.nil_append] at hpending
  obtain ⟨g,below,vs,ws,L,_,hrest,hderives,heq⟩ := hpending.close
  cases hrest with
  | start => exact ⟨L,ts,hcuts,heq ▸ hderives⟩

theorem denotes_iff_of_parse {text : String} {f : Fragment} (h : parse text = .ok f)
    {L : Language UInt8} : Denotes text.toUTF8.toList L ↔ f.language = L := by
  have hall : ∀ {M}, Denotes text.toUTF8.toList M → f.language = M := by
    intro M hM
    obtain ⟨g,hg,_,hlanguage⟩ := parse_of_denotes hM
    rw [h] at hg
    cases hg
    exact hlanguage
  constructor
  · exact hall
  · intro heq
    obtain ⟨M,hM⟩ := exists_denotes_of_parse h
    rwa [← heq,hall hM]

theorem built_of_parse {text : String} {f : Fragment} (h : parse text = .ok f) : f.Built := by
  obtain ⟨L,hL⟩ := exists_denotes_of_parse h
  obtain ⟨g,hg,hbuilt,_⟩ := parse_of_denotes hL
  rw [h] at hg
  cases hg
  exact hbuilt

end LexAutomata.Regex
