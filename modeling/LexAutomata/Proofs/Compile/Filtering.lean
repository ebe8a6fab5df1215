import LexAutomata.Proofs.Compile.Recognition

namespace LexAutomata.Compile

variable {options others : Options} {rules rules' : List Rule} {c : Compilation} {g g' : Gathered}

def isValid (rule : Rule) : Bool := (Regex.parse rule.regex).isOk

/-- No rule before this one is invalid. -/
def FirstInvalid (rules : List Rule) (rule : Rule) (e : Regex.Error) : Prop :=
  ∃ before after, rules = before ++ rule :: after ∧ (∀ r ∈ before, isValid r = true) ∧
    Regex.parse rule.regex = .error e

section Invalid

theorem rejection?_eq_none_iff {rule : Rule} : rejection? rule = none ↔ isValid rule = true := by
  unfold rejection? isValid
  cases Regex.parse rule.regex with
  | ok f => exact iff_of_true rfl rfl
  | error e => exact iff_of_false (Option.some_ne_none _) Bool.noConfusion

theorem rejections_eq_nil_iff : rejections rules = [] ↔ ∀ rule ∈ rules, isValid rule = true := by
  rw [rejections,List.filterMap_eq_nil_iff]
  exact forall₂_congr fun rule _ => rejection?_eq_none_iff

theorem firstInvalid_iff {rule : Rule} {e : Regex.Error} :
    FirstInvalid rules rule e ↔ (rejections rules).head? = some ⟨rule, e⟩ := by
  have hhere : ∀ r, rejection? r = some ⟨rule, e⟩ ↔ r = rule ∧ Regex.parse r.regex = .error e := by
    intro r
    unfold rejection?
    cases Regex.parse r.regex with
    | ok f => simp
    | error x => simp
  rw [rejections,List.head?_filterMap,List.findSome?_eq_some_iff]
  simp only [FirstInvalid,rejection?_eq_none_iff,hhere]
  constructor
  · intro h
    obtain ⟨before,after,hrules,hbefore,hparse⟩ := h
    exact ⟨before,rule,after,hrules,⟨rfl,hparse⟩,hbefore⟩
  · intro h
    obtain ⟨before,r,after,hrules,⟨rfl,hparse⟩,hbefore⟩ := h
    exact ⟨before,after,hrules,hbefore,hparse⟩

theorem parsed_filter_isValid (rules : List Rule) : parsed (rules.filter isValid) = parsed rules := by
  rw [parsed,parsed,List.filterMap_filter]
  congr 1
  funext rule
  unfold isValid
  cases Regex.parse rule.regex <;> rfl

end Invalid

section Outcomes

theorem compileRules_of_gather (hc : compileRules options rules = .ok c)
    (hg : gather options .empty rules = .ok g) (hg' : gather others .empty rules' = .ok g')
    (hnfa : g'.nfa = g.nfa) (hminimize : others.minimize = options.minimize)
    (hnames : others.individualFinals = options.individualFinals) :
    compileRules others rules' = .ok { c with rejected := g'.rejected } := by
  simp only [compileRules,hg,hg',hnfa,hminimize,hnames] at hc ⊢
  cases hd : g.nfa.determinize with
  | error f => simp [hd] at hc
  | ok built =>
    simp only [hd] at hc ⊢
    cases hon : options.minimize with
    | false =>
      simp only [hon,Bool.false_eq_true,if_false] at hc ⊢
      cases hc
      rfl
    | true =>
      simp only [hon,if_true] at hc ⊢
      cases hm : built.minimize options.individualFinals with
      | error f => simp [hm] at hc
      | ok m =>
        simp only [hm] at hc ⊢
        cases hc
        rfl

theorem skips_or_valid_of_compileRules (hc : compileRules options rules = .ok c) :
    options.skipInvalidRules = true ∨ rejections rules = [] := by
  cases hg : gather options .empty rules with
  | error e => simp [compileRules,hg] at hc
  | ok g => exact skips_or_valid_of_gather hg

theorem compileRules_of_parsed (hc : compileRules options rules = .ok c)
    (h : others.skipInvalidRules = true ∨ rejections rules' = []) (hparsed : parsed rules' = parsed rules)
    (hminimize : others.minimize = options.minimize)
    (hnames : others.individualFinals = options.individualFinals) :
    compileRules others rules' = .ok { c with rejected := rejections rules' } := by
  have hg := gather_eq_ok (skips_or_valid_of_compileRules hc) .empty
  have hg' := gather_eq_ok h .empty
  exact compileRules_of_gather hc hg hg' (by rw [hparsed]) hminimize hnames

theorem rejected_of_compileRules (hc : compileRules options rules = .ok c) :
    c.rejected = rejections rules := by
  have hself := compileRules_of_parsed hc (skips_or_valid_of_compileRules hc) rfl rfl rfl
  rw [hc,Except.ok.injEq] at hself
  exact congrArg (·.rejected) hself

theorem exists_compileRules_of_valid (h : options.skipInvalidRules = true ∨ rejections rules = []) :
    ∃ c, compileRules options rules = .ok c := by
  let lenient : Options := { options with skipInvalidRules := true }
  obtain ⟨c,hc⟩ := exists_compileRules (show lenient.skipInvalidRules = true from rfl) rules
  exact ⟨_,compileRules_of_parsed hc h rfl rfl rfl⟩

/-- What becomes of invalid rules decides whether there is a compilation, and does not change it. -/
theorem compileRules_eq_ok_iff {s : Compilation} (hc : compileRules options rules = .ok c)
    (hminimize : others.minimize = options.minimize)
    (hnames : others.individualFinals = options.individualFinals) :
    compileRules others rules = .ok s ↔
      (others.skipInvalidRules = true ∨ rejections rules = []) ∧ s = c := by
  have hsame : (others.skipInvalidRules = true ∨ rejections rules = []) →
      compileRules others rules = .ok c := by
    intro h
    rw [compileRules_of_parsed hc h rfl hminimize hnames,← rejected_of_compileRules hc]
  constructor
  · intro hs
    have h := skips_or_valid_of_compileRules hs
    rw [hsame h,Except.ok.injEq] at hs
    exact ⟨h,hs.symm⟩
  · intro h
    rw [hsame h.1,h.2]

/-- A compilation fails at the first invalid rule, if invalid rules are not left out, and for no other
reason. -/
theorem compileRules_eq_error_iff {x : Error} :
    compileRules options rules = .error x ↔ options.skipInvalidRules = false ∧
      ∃ rule e, FirstInvalid rules rule e ∧ x = .regex rule.name rule.line e := by
  simp only [firstInvalid_iff]
  constructor
  · intro h
    have hnone : ¬ (options.skipInvalidRules = true ∨ rejections rules = []) := by
      intro hok
      obtain ⟨c,hc⟩ := exists_compileRules_of_valid hok
      rw [hc] at h
      cases h
    rw [not_or,Bool.not_eq_true] at hnone
    obtain ⟨hskip,hrejections⟩ := hnone
    obtain ⟨r,hr⟩ := Option.isSome_iff_exists.mp (List.isSome_head?.mpr hrejections)
    rw [compileRules,gather_eq_error hskip hr] at h
    exact ⟨hskip,r.rule,r.error,hr,(Except.error.inj h).symm⟩
  · intro h
    obtain ⟨hskip,rule,e,hfirst,rfl⟩ := h
    rw [compileRules,gather_eq_error hskip hfirst]

theorem compileSource_eq_error_iff {source : String} {x : Error} :
    compileSource options source = .error x ↔
      (∃ e, RuleFile.readRules source = .error e ∧ x = .rules e) ∨
        ∃ rules, RuleFile.readRules source = .ok rules ∧ compileRules options rules = .error x := by
  rw [compileSource]
  cases RuleFile.readRules source with
  | error e => simp [eq_comm]
  | ok rules => simp

end Outcomes

/-- Where invalid rules are left out, the automaton is that of the valid rules, and the others are told in order
with their errors. Where they are not, the compilation fails if and only if there are any, at the first one,
and is the same otherwise. An error of the rule file comes before all this. -/
theorem compile_filters (options : Options) :
    (∀ rules, ∃ c d,
      compileRules { options with skipInvalidRules := true } rules = .ok c ∧
        compileRules { options with skipInvalidRules := true } (rules.filter isValid) = .ok d ∧
        c.dfa = d.dfa ∧ c.rejected = rejections rules ∧ d.rejected = [] ∧
        (∀ s, compileRules { options with skipInvalidRules := false } rules = .ok s ↔
          (∀ rule ∈ rules, isValid rule = true) ∧ s = c) ∧
        ∀ x, compileRules { options with skipInvalidRules := false } rules = .error x ↔
          ∃ rule e, FirstInvalid rules rule e ∧ x = .regex rule.name rule.line e) ∧
    ∀ source,
      (∀ e, compileSource options source = .error (.rules e) ↔ RuleFile.readRules source = .error e) ∧
        ∀ name line e, compileSource options source = .error (.regex name line e) ↔
          ∃ rules, RuleFile.readRules source = .ok rules ∧ options.skipInvalidRules = false ∧
            ∃ rule, FirstInvalid rules rule e ∧ name = rule.name ∧ line = rule.line := by
  constructor
  · intro rules
    let lenient : Options := { options with skipInvalidRules := true }
    let strict : Options := { options with skipInvalidRules := false }
    obtain ⟨c,hc⟩ := exists_compileRules (show lenient.skipInvalidRules = true from rfl) rules
    have hvalid : rejections (rules.filter isValid) = [] :=
      rejections_eq_nil_iff.mpr fun rule hrule => (List.mem_filter.mp hrule).2
    have hd : compileRules lenient (rules.filter isValid) = .ok { c with rejected := [] } := by
      rw [← hvalid]
      exact compileRules_of_parsed hc (.inl rfl) (parsed_filter_isValid rules) rfl rfl
    refine ⟨c,_,hc,hd,rfl,rejected_of_compileRules hc,rfl,fun s => ?_,fun x => ?_⟩
    · have hstrict : compileRules strict rules = .ok s ↔
          (strict.skipInvalidRules = true ∨ rejections rules = []) ∧ s = c :=
        compileRules_eq_ok_iff hc rfl rfl
      rw [hstrict,rejections_eq_nil_iff,or_iff_right Bool.noConfusion]
    · rw [compileRules_eq_error_iff]
      exact and_iff_right rfl
  · intro source
    simp only [compileSource_eq_error_iff,compileRules_eq_error_iff]
    exact ⟨fun e => by simp,fun name line e => by simp⟩

end LexAutomata.Compile
