import LexAutomata.Proofs.Compile.Recognition
import LexAutomata.Proofs.TaggedNfa.WellFormed

namespace LexAutomata.Compile

variable {options : Options} {rules : List Rule} {c : Compilation}

/-- The place in the list of the first rule of the name whose expression is well formed. -/
def firstRule (rules : List Rule) (name : String) : Nat :=
  rules.findIdx fun rule => rule.name == name && (Regex.parse rule.regex).isOk

/-- Whether the names stand in the order of their first rules, and each has one. -/
def Ordered (rules : List Rule) (names : List String) : Prop :=
  (names.Pairwise fun a b => firstRule rules a < firstRule rules b) ∧
    ∀ a ∈ names, firstRule rules a < rules.length

theorem Ordered.sublist {names more : List String} (h : Ordered rules more)
    (hsub : names.Sublist more) : Ordered rules names :=
  ⟨h.1.sublist hsub,fun a ha => h.2 a (hsub.subset ha)⟩

theorem firstRule_append_of_lt {name : String} (h : firstRule rules name < rules.length)
    (more : List Rule) : firstRule (rules ++ more) name = firstRule rules name := by
  rw [firstRule,List.findIdx_append]
  exact if_pos h

theorem Ordered.append {names : List String} (h : Ordered rules names) (more : List Rule) :
    Ordered (rules ++ more) names := by
  constructor
  · refine h.1.imp_of_mem fun {a b} ha hb hab => ?_
    rw [firstRule_append_of_lt (h.2 a ha),firstRule_append_of_lt (h.2 b hb)]
    exact hab
  · intro a ha
    rw [firstRule_append_of_lt (h.2 a ha),List.length_append]
    exact Nat.lt_add_right _ (h.2 a ha)

theorem firstRule_lt_length_iff {name : String} :
    firstRule rules name < rules.length ↔ name ∈ (parsed rules).map (·.1) := by
  rw [firstRule,List.findIdx_lt_length]
  simp only [List.mem_map,mem_parsed,Bool.and_eq_true,beq_iff_eq]
  constructor
  · intro hfrom
    obtain ⟨rule,hrule,hname,hok⟩ := hfrom
    cases hparse : Regex.parse rule.regex with
    | error e =>
      rw [hparse] at hok
      cases hok
    | ok f => exact ⟨(name, f),⟨rule,hrule,hname,hparse⟩,rfl⟩
  · intro hfrom
    obtain ⟨p,⟨rule,hrule,hname,hparse⟩,rfl⟩ := hfrom
    exact ⟨rule,hrule,hname,by rw [hparse]; rfl⟩

theorem firstRule_concat {rule : Rule} {f : Fragment} (hparse : Regex.parse rule.regex = .ok f)
    (hnew : rule.name ∉ (parsed rules).map (·.1)) :
    firstRule (rules ++ [rule]) rule.name = rules.length := by
  rw [← firstRule_lt_length_iff,firstRule] at hnew
  have hhere : (rule.name == rule.name && (Regex.parse rule.regex).isOk) = true := by
    rw [hparse,beq_self_eq_true]
    rfl
  rw [firstRule,List.findIdx_append,if_neg hnew,List.findIdx_singleton]
  simp only [hhere,if_true,Nat.zero_add]

theorem ordered_parsed (rules : List Rule) : Ordered rules ((parsed rules).map (·.1)).eraseDups := by
  -- from the end of the list: a further rule leaves the first places of the names before it
  induction rules using List.reverseRecOn with
  | nil => exact ⟨.nil,List.forall_mem_nil _⟩
  | append_singleton rules rule ih =>
    have hkept := ih.append [rule]
    have hparsed : parsed (rules ++ [rule]) = parsed rules ++ parsed [rule] := by
      rw [parsed,parsed,parsed,List.filterMap_append]
    cases hparse : Regex.parse rule.regex with
    | error e =>
      have hlast : parsed [rule] = [] := by simp [parsed,hparse]
      rw [hparsed,hlast,List.append_nil]
      exact hkept
    | ok f =>
      have hlast : parsed [rule] = [(rule.name, f)] := by simp [parsed,hparse]
      rw [hparsed,hlast,List.map_append,List.map_singleton,TaggedNfa.eraseDups_concat]
      split
      · exact hkept
      · rename_i hnew
        have hplace := firstRule_concat hparse hnew
        constructor
        · refine List.pairwise_append.mpr ⟨hkept.1,List.pairwise_singleton _ _,fun a ha b hb => ?_⟩
          rw [List.mem_singleton.mp hb,hplace,firstRule_append_of_lt (ih.2 a ha)]
          exact ih.2 a ha
        · refine List.forall_mem_append.mpr ⟨hkept.2,List.forall_mem_singleton.mpr ?_⟩
          rw [hplace,List.length_append]
          exact Nat.lt_succ_self _

theorem wellFormed_built (h : compileRules options rules = .ok c) :
    c.built.WellFormed ∧ (parsed rules ≠ [] → c.built.Productive) ∧
      ∀ n ∈ c.built.nodes, Ordered rules n.names := by
  obtain ⟨hdeterminize,_⟩ := phases_of_compileRules h
  have hbuilt : ∀ p ∈ parsed rules, p.2.Built := fun p hp => built_of_mem_parsed hp
  have hmerges := TaggedNfa.merges_addAll fun p hp => (hbuilt p hp).wellFormed
  obtain ⟨d,table,hd,hrealizes⟩ := TaggedNfa.exists_determinize hmerges.bounded
  rw [hdeterminize,Except.ok.injEq] at hd
  subst hd
  have hnames := TaggedNfa.names_addAll (parsed rules)
  refine ⟨hrealizes.wellFormed hmerges.bounded,?_,?_⟩
  · intro hparsed
    refine hrealizes.productive hmerges.bounded (TaggedNfa.live_addAll hbuilt) ?_
    intro hfinals
    rw [hfinals] at hnames
    obtain ⟨p,hp⟩ := List.exists_mem_of_ne_nil _ hparsed
    have hname := List.mem_eraseDups.mpr (List.mem_map_of_mem (f := (·.1)) hp)
    rw [← hnames] at hname
    cases hname
  · intro n hn
    obtain ⟨s,hs⟩ := hrealizes.describes hn
    rw [hs.names]
    exact (hnames ▸ ordered_parsed rules).sublist (TaggedNfa.namesAt_sublist _ s)

/-- Whatever a list of rules is compiled to is well formed; if a rule can be found at all, it can be found
from every node; and unless nodes of different names are merged, their names are in the order of the rules. -/
theorem compileRules_wellFormed (h : compileRules options rules = .ok c) :
    c.dfa.WellFormed ∧
      ((∃ rule ∈ rules, ∃ f, Regex.parse rule.regex = .ok f) → c.dfa.Productive) ∧
      (options.minimize = false ∨ options.individualFinals = true →
        ∀ n ∈ c.dfa.nodes, Ordered rules n.names) := by
  obtain ⟨hwellFormed,hproductive,hordered⟩ := wellFormed_built h
  obtain ⟨_,hplain,hminimized⟩ := phases_of_compileRules h
  have hparsed : (∃ rule ∈ rules, ∃ f, Regex.parse rule.regex = .ok f) → parsed rules ≠ [] := by
    intro hfrom
    obtain ⟨rule,hrule,f,hparse⟩ := hfrom
    have hmem : (rule.name, f) ∈ parsed rules := mem_parsed.mpr ⟨rule,hrule,rfl,hparse⟩
    exact List.ne_nil_of_mem hmem
  cases hminimize : options.minimize with
  | false =>
    rw [hplain hminimize]
    exact ⟨hwellFormed,fun hrule => hproductive (hparsed hrule),fun _ => hordered⟩
  | true =>
    obtain ⟨m,hm,hdfa⟩ := hminimized hminimize
    obtain ⟨m',hm',hwellFormed',hproductive',hnames⟩ :=
      hwellFormed.exists_minimize options.individualFinals
    rw [hm',Except.ok.injEq] at hm
    subst hm
    rw [hdfa]
    refine ⟨hwellFormed',fun hrule => hproductive' (hproductive (hparsed hrule)),?_⟩
    intro hoptions n hn
    rcases hnames (hoptions.resolve_left Bool.noConfusion) n hn with hnone | ⟨k,hk,hsame⟩
    · rw [hnone]
      exact ⟨.nil,List.forall_mem_nil _⟩
    · rw [hsame]
      exact hordered k hk

/-- Two rules for one word, and a rule that is left out. -/
theorem compileRules_wellFormed_of_shared_word :
    ∃ c, compileRules {} [⟨"op", "(", 1, 4⟩, ⟨"id", "a", 2, 4⟩, ⟨"op", "a", 3, 4⟩] = .ok c ∧
      c.dfa.WellFormed ∧ c.dfa.Productive ∧ ∀ n ∈ c.dfa.nodes,
        Ordered [⟨"op", "(", 1, 4⟩, ⟨"id", "a", 2, 4⟩, ⟨"op", "a", 3, 4⟩] n.names := by
  obtain ⟨c,hc⟩ := exists_compileRules (show ({} : Options).skipInvalidRules = true from rfl)
    [⟨"op", "(", 1, 4⟩, ⟨"id", "a", 2, 4⟩, ⟨"op", "a", 3, 4⟩]
  have hbytes : "a".toUTF8.toList = [97] := by decide +kernel
  have hdenotes : Regex.Denotes "a".toUTF8.toList ((ByteSet.singleton 97).language * 1) := by
    rw [hbytes]
    exact ⟨_,.byte (by decide) (by decide) .nil,.lone (.cons (.plain (.set _)) .empty)⟩
  obtain ⟨f,hparse,_⟩ := Regex.parse_of_denotes hdenotes
  obtain ⟨hwellFormed,hproductive,hordered⟩ := compileRules_wellFormed hc
  refine ⟨c,hc,hwellFormed,hproductive ⟨⟨"id", "a", 2, 4⟩,?_,f,hparse⟩,hordered (.inr rfl)⟩
  exact List.mem_cons_of_mem _ List.mem_cons_self

end LexAutomata.Compile
