import LexAutomata.Proofs.Compile.Recognition
import LexAutomata.Proofs.TaggedNfa.Live

namespace LexAutomata.Compile

variable {options : Options} {rules rules' : List Rule} {c : Compilation}

/-- The automaton before minimization: no node is useless, but some may be equivalent. -/
structure Determinized (rules : List Rule) (d : Dfa) : Prop where
  deterministic : d.Deterministic
  trim : d.Trim
  accepts_iff : ∀ w required,
    (Dfa.Runner.accepts d w required).1 = true ↔ Recognized rules required w

theorem determinized_built (h : compileRules options rules = .ok c) : Determinized rules c.built := by
  obtain ⟨hdeterminize,_⟩ := phases_of_compileRules h
  have hbuilt : ∀ p ∈ parsed rules, p.2.Built := fun p hp => built_of_mem_parsed hp
  have hmerges := TaggedNfa.merges_addAll fun p hp => (hbuilt p hp).wellFormed
  obtain ⟨e,table,he,hrealizes⟩ := TaggedNfa.exists_determinize hmerges.bounded
  obtain ⟨d,hd,hdeterministic,haccepts⟩ := exists_determinize_parsed rules
  rw [hdeterminize,Except.ok.injEq] at he hd
  subst he hd
  exact ⟨hdeterministic,hrealizes.trim hmerges (TaggedNfa.live_addAll hbuilt),haccepts⟩

/-- Minimized by names, the automaton accepts what the rules recognise, with neither useless nor
equivalent nodes. -/
theorem reduced_of_compileRules (hminimize : options.minimize = true)
    (hnames : options.individualFinals = true) (h : compileRules options rules = .ok c) :
    c.dfa.Trim ∧ c.dfa.Reduced true ∧ ∀ w required,
      (Dfa.Runner.accepts c.dfa w required).1 = true ↔ Recognized rules required w := by
  have hbuilt := determinized_built h
  obtain ⟨_,_,hminimized⟩ := phases_of_compileRules h
  obtain ⟨m,hm,hdfa⟩ := hminimized hminimize
  obtain ⟨m',f,hm',hprojects,hf⟩ := Dfa.exists_minimize_classes hbuilt.deterministic true
  rw [hnames,hm',Except.ok.injEq] at hm
  subst hm
  have hsame : ∀ i < c.built.size, ∀ j < c.built.size, f i = f j →
      ∀ name, name ∈ c.built.names i ↔ name ∈ c.built.names j :=
    fun i hi j hj hij => ((hf i hi j hj).mp hij).alike.2 rfl
  have hkept : ∀ i < c.built.size, ∀ name, name ∈ m'.dfa.names (f i) ↔ name ∈ c.built.names i :=
    fun i hi name => hprojects.mem_names_iff hsame hi
  rw [hdfa]
  refine ⟨hprojects.trim hbuilt.trim,hprojects.reduced hf,fun w required => ?_⟩
  exact (hprojects.accepts_iff hkept).trans (hbuilt.accepts_iff w required)

/-- Lists of rules that recognise the same words under each name are compiled, minimizing by names, to
automata that differ in the numbers of their nodes only, and every automaton with the same answers has at
least as many nodes. -/
theorem compileRules_canonical (options others : Options) (hminimize : options.minimize = true)
    (hnames : options.individualFinals = true) (hminimize' : others.minimize = true)
    (hnames' : others.individualFinals = true)
    (hsame : ∀ name w, Recognized rules [name] w ↔ Recognized rules' [name] w) :
    (options.skipInvalidRules = true → ∃ c, compileRules options rules = .ok c) ∧
      (others.skipInvalidRules = true → ∃ d, compileRules others rules' = .ok d) ∧
      ∀ c d, compileRules options rules = .ok c → compileRules others rules' = .ok d →
        (∃ f, c.dfa.Isomorphism d.dfa f) ∧ ∀ e, c.dfa.Agree e → c.dfa.size ≤ e.size := by
  refine ⟨fun hskip => exists_compileRules hskip rules,fun hskip => exists_compileRules hskip rules',?_⟩
  intro c d hc hd
  obtain ⟨htrim,hreduced,haccepts⟩ := reduced_of_compileRules hminimize hnames hc
  obtain ⟨htrim',hreduced',haccepts'⟩ := reduced_of_compileRules hminimize' hnames' hd
  have hagree : c.dfa.Agree d.dfa := by
    intro w name
    rw [Bool.eq_iff_iff,haccepts,haccepts']
    exact hsame name w
  refine ⟨Dfa.exists_isomorphism htrim hreduced htrim' hreduced' hagree,fun e he => ?_⟩
  exact Dfa.size_le_of_agree htrim hreduced he

/-- Neither the order of the rules nor a rule that stands twice changes the automaton. -/
theorem compileRules_canonical_of_reordered :
    ∃ c d f, compileRules {} [⟨"id", "a", 1, 4⟩, ⟨"op", "b", 2, 4⟩] = .ok c ∧
      compileRules {} [⟨"op", "b", 1, 4⟩, ⟨"id", "a", 2, 4⟩, ⟨"id", "a", 3, 4⟩] = .ok d ∧
      c.dfa.Isomorphism d.dfa f ∧ ∀ e, c.dfa.Agree e → c.dfa.size ≤ e.size := by
  have hsame : ∀ name w,
      Recognized [⟨"id", "a", 1, 4⟩, ⟨"op", "b", 2, 4⟩] [name] w ↔
        Recognized [⟨"op", "b", 1, 4⟩, ⟨"id", "a", 2, 4⟩, ⟨"id", "a", 3, 4⟩] [name] w := by
    intro name w
    simp [Recognized,or_comm]
  obtain ⟨hfirst,hsecond,hcanonical⟩ := compileRules_canonical {} {} rfl rfl rfl rfl hsame
  obtain ⟨c,hc⟩ := hfirst rfl
  obtain ⟨d,hd⟩ := hsecond rfl
  obtain ⟨⟨f,hf⟩,hleast⟩ := hcanonical c d hc hd
  exact ⟨c,d,f,hc,hd,hf,hleast⟩

end LexAutomata.Compile
