import LexAutomata.Compile.Basic
import LexAutomata.Proofs.Dfa.Projection
import LexAutomata.Proofs.Regex.Reading
import LexAutomata.Proofs.TaggedNfa.Simulation

namespace LexAutomata.Compile

/-- The fragments of the rules whose expressions are well formed, under the names of the rules. -/
def parsed (rules : List Rule) : List (String × Fragment) :=
  rules.filterMap fun rule =>
    match Regex.parse rule.regex with
    | .ok f => some (rule.name, f)
    | .error _ => none

theorem mem_parsed {rules : List Rule} {p : String × Fragment} :
    p ∈ parsed rules ↔ ∃ rule ∈ rules, rule.name = p.1 ∧ Regex.parse rule.regex = .ok p.2 := by
  rw [parsed,List.mem_filterMap]
  refine exists_congr fun rule => and_congr_right fun _ => ?_
  cases Regex.parse rule.regex with
  | error e => simp
  | ok f => simp [Prod.ext_iff]

theorem built_of_mem_parsed {rules : List Rule} {p : String × Fragment} (hp : p ∈ parsed rules) :
    p.2.Built := by
  obtain ⟨rule,_,_,hparse⟩ := mem_parsed.mp hp
  exact Regex.built_of_parse hparse

def rejection? (rule : Rule) : Option Rejection :=
  match Regex.parse rule.regex with
  | .ok _ => none
  | .error e => some ⟨rule, e⟩

def rejections (rules : List Rule) : List Rejection := rules.filterMap rejection?

section Gathering

variable {options : Options} {rules : List Rule} {nfa : TaggedNfa} {g : Gathered}

theorem gather_eq_ok (h : options.skipInvalidRules = true ∨ rejections rules = []) (nfa : TaggedNfa) :
    gather options nfa rules =
      .ok ⟨(parsed rules).foldl (fun n p => n.add p.2 p.1) nfa, rejections rules⟩ := by
  induction rules generalizing nfa with
  | nil => rfl
  | cons rule rest ih =>
    rw [gather]
    cases hparse : Regex.parse rule.regex with
    | ok f =>
      have hrest : rejections (rule :: rest) = rejections rest := by simp [rejections,rejection?,hparse]
      rw [hrest] at h
      dsimp only
      rw [ih h,hrest]
      simp [parsed,hparse]
    | error e =>
      have hrest : rejections (rule :: rest) = ⟨rule, e⟩ :: rejections rest := by
        simp [rejections,rejection?,hparse]
      have hskip : options.skipInvalidRules = true := by
        rw [hrest] at h
        exact h.resolve_right (List.cons_ne_nil _ _)
      dsimp only
      rw [if_pos hskip,ih (.inl hskip),hrest]
      simp [parsed,hparse]

theorem gather_eq_error (hskip : options.skipInvalidRules = false) {r : Rejection}
    (h : (rejections rules).head? = some r) (nfa : TaggedNfa) :
    gather options nfa rules = .error (.regex r.rule.name r.rule.line r.error) := by
  induction rules generalizing nfa with
  | nil => cases h
  | cons rule rest ih =>
    rw [gather]
    cases hparse : Regex.parse rule.regex with
    | ok f =>
      have hrest : rejections (rule :: rest) = rejections rest := by simp [rejections,rejection?,hparse]
      exact ih (hrest ▸ h) (nfa.add f rule.name)
    | error e =>
      have hrest : rejections (rule :: rest) = ⟨rule, e⟩ :: rejections rest := by
        simp [rejections,rejection?,hparse]
      rw [hrest,List.head?_cons,Option.some.injEq] at h
      subst h
      simp [hskip]

theorem skips_or_valid_of_gather (h : gather options nfa rules = .ok g) :
    options.skipInvalidRules = true ∨ rejections rules = [] := by
  by_contra hnone
  rw [not_or,Bool.not_eq_true] at hnone
  obtain ⟨r,hr⟩ := Option.isSome_iff_exists.mp (List.isSome_head?.mpr hnone.2)
  rw [gather_eq_error hnone.1 hr] at h
  cases h

/-- Rules that are left out leave no trace in what is gathered. -/
theorem nfa_of_gather (h : gather options nfa rules = .ok g) :
    g.nfa = (parsed rules).foldl (fun n p => n.add p.2 p.1) nfa := by
  rw [gather_eq_ok (skips_or_valid_of_gather h) nfa,Except.ok.injEq] at h
  rw [← h]

theorem exists_gather (hskip : options.skipInvalidRules = true) (rules : List Rule) (nfa : TaggedNfa) :
    ∃ g, gather options nfa rules = .ok g ∧
      g.nfa = (parsed rules).foldl (fun n p => n.add p.2 p.1) nfa :=
  ⟨_,gather_eq_ok (.inl hskip) nfa,rfl⟩

end Gathering

/-- The word is one of a rule with a well formed expression, and the rule is required if any is. -/
def Recognized (rules : List Rule) (required : List String) (w : List UInt8) : Prop :=
  ∃ rule ∈ rules, (∃ L, Regex.Denotes rule.regex.toUTF8.toList L ∧ w ∈ L) ∧
    (required = [] ∨ rule.name ∈ required)

theorem exists_determinize_parsed (rules : List Rule) :
    ∃ d, (TaggedNfa.addAll (parsed rules)).determinize = .ok d ∧ d.Deterministic ∧
      ∀ w required, (Dfa.Runner.accepts d w required).1 = true ↔ Recognized rules required w := by
  have hmerges := TaggedNfa.merges_addAll fun p (hp : p ∈ parsed rules) =>
    (built_of_mem_parsed hp).wellFormed
  obtain ⟨d,table,hd,hrealizes⟩ := TaggedNfa.exists_determinize hmerges.bounded
  refine ⟨d,hd,hrealizes.deterministic,fun w required => ?_⟩
  rw [hrealizes.accepts_iff hmerges.bounded]
  simp only [hmerges.recognizes_iff]
  constructor
  · intro hfrom
    obtain ⟨name,⟨p,hp,hname,hw⟩,hrequired⟩ := hfrom
    obtain ⟨rule,hrule,hrulename,hparse⟩ := mem_parsed.mp hp
    refine ⟨rule,hrule,⟨p.2.language,?_,hw⟩,?_⟩
    · exact (Regex.denotes_iff_of_parse hparse).mpr rfl
    · rwa [hrulename,hname]
  · intro hfrom
    obtain ⟨rule,hrule,⟨L,hdenotes,hw⟩,hrequired⟩ := hfrom
    obtain ⟨f,hparse,_,hlanguage⟩ := Regex.parse_of_denotes hdenotes
    refine ⟨rule.name,⟨(rule.name, f),?_,rfl,?_⟩,hrequired⟩
    · exact mem_parsed.mpr ⟨rule,hrule,rfl,hparse⟩
    · rwa [hlanguage]

theorem phases_of_compileRules {options : Options} {rules : List Rule} {c : Compilation}
    (h : compileRules options rules = .ok c) :
    (TaggedNfa.addAll (parsed rules)).determinize = .ok c.built ∧
      (options.minimize = false → c.dfa = c.built) ∧
      (options.minimize = true →
        ∃ m, c.built.minimize options.individualFinals = .ok m ∧ c.dfa = m.dfa) := by
  rw [compileRules] at h
  cases hg : gather options .empty rules with
  | error e => simp [hg] at h
  | ok g =>
    simp only [hg] at h
    cases hd : g.nfa.determinize with
    | error e => simp [hd] at h
    | ok d =>
      simp only [hd] at h
      rw [nfa_of_gather hg] at hd
      split at h
      · rename_i hminimize
        cases hm : d.minimize options.individualFinals with
        | error e => simp [hm] at h
        | ok m =>
          simp only [hm,Except.ok.injEq] at h
          subst h
          refine ⟨hd,fun hoff => ?_,fun _ => ⟨m,hm,rfl⟩⟩
          rw [hminimize] at hoff
          cases hoff
      · rename_i hminimize
        cases h
        exact ⟨hd,fun _ => rfl,fun hon => absurd hon hminimize⟩

/-- Where invalid rules are left out, every list of rules is compiled. -/
theorem exists_compileRules {options : Options} (hskip : options.skipInvalidRules = true)
    (rules : List Rule) : ∃ c, compileRules options rules = .ok c := by
  obtain ⟨g,hg,hnfa⟩ := exists_gather hskip rules .empty
  obtain ⟨d,hd,hdeterministic,_⟩ := exists_determinize_parsed rules
  have hbuilt : g.nfa.determinize = .ok d := by
    rw [hnfa]
    exact hd
  obtain ⟨m,_,_,hm,_⟩ := Dfa.exists_minimize hdeterministic options.individualFinals
  simp only [compileRules,hg,hbuilt,hm]
  split
  · exact ⟨_,rfl⟩
  · exact ⟨_,rfl⟩

end LexAutomata.Compile
