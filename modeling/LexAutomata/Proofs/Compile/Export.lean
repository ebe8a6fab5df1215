import LexAutomata.Proofs.Compile.WellFormed
import LexAutomata.Proofs.Dfa.Minimal
import LexAutomata.Proofs.Output.Finals

namespace LexAutomata.Compile

open Dfa (Runner)
open Output (Tables)

variable {options : Options} {rules : List Rule} {c : Compilation} {id : Nat}

theorem wellFormed_dfa (h : compileRules options rules = .ok c) : c.dfa.WellFormed := by
  have hbuilt := (wellFormed_built h).1
  obtain ⟨_,hplain,hminimized⟩ := phases_of_compileRules h
  cases hminimize : options.minimize with
  | false =>
    rw [hplain hminimize]
    exact hbuilt
  | true =>
    obtain ⟨m,hm,hdfa⟩ := hminimized hminimize
    obtain ⟨m',hm',hwellFormed,_⟩ := hbuilt.exists_minimize options.individualFinals
    rw [hm',Except.ok.injEq] at hm
    rw [hdfa,← hm]
    exact hwellFormed

theorem entered_of_ne_start (h : compileRules options rules = .ok c) (hfinal : c.dfa.isFinal id = true)
    (hne : id ≠ c.dfa.start) : c.dfa.Entered id := by
  have hid : id < c.dfa.size := by
    by_contra hge
    have hnone : c.dfa.node? id = none := List.getElem?_eq_none (Nat.not_lt.mp hge)
    simp [Dfa.isFinal,Dfa.names,hnone] at hfinal
  obtain ⟨w,hw⟩ := (wellFormed_dfa h).reached id hid
  refine Dfa.entered_of_follow? ?_ hw
  rintro rfl
  exact hne (Option.some.inj hw).symm

/-- The names of a final node can be read back from the tables, unless it is a start node that nothing
enters; and the tables give the verdict of the automaton, unless it is on the empty word at such a node. -/
theorem compileRules_exports (h : compileRules options rules = .ok c) :
    (∀ id, c.dfa.isFinal id = true →
      ((Tables.ofDfa c.dfa).TellsNames id (c.dfa.names id) ↔ (id = c.dfa.start → c.dfa.Entered id))) ∧
    ∀ w required, w ≠ [] ∨ (c.dfa.isFinal c.dfa.start = true → c.dfa.Entered c.dfa.start) →
      (Tables.ofDfa c.dfa).accepts w required = (Runner.accepts c.dfa w required).1 := by
  refine ⟨fun id hfinal => ?_,fun w required hw => Tables.accepts_ofDfa hw⟩
  rw [Tables.tellsNames_iff hfinal]
  constructor
  · exact fun hentered _ => hentered
  · intro hstart
    by_cases hid : id = c.dfa.start
    · exact hstart hid
    · exact entered_of_ne_start h hfinal hid

section Letter

/-- The automaton of one letter, and of the empty word too if `optional`. -/
def letter (optional : Bool) : Dfa :=
  ⟨[⟨[⟨.singleton 97, 1⟩], if optional then ["id"] else []⟩, ⟨[], ["id"]⟩],0,by simp,by simp⟩

theorem reduced_letter (optional : Bool) : (letter optional).Reduced true := by
  intro i hi j hj h
  have hread := Dfa.equivalent_iff_follow?.mp h [97]
  have hstart : (letter optional).follow? 0 [97] = some 1 := rfl
  have hend : (letter optional).follow? 1 [97] = none := rfl
  match i, j, hi, hj with
  | 0, 0, _, _ => rfl
  | 1, 1, _, _ => rfl
  | 0, 1, _, _ =>
    rw [hstart,hend] at hread
    cases hread
  | 1, 0, _, _ =>
    rw [hstart,hend] at hread
    cases hread

theorem exists_letter (rules : List Rule) (optional : Bool)
    (h : (TaggedNfa.addAll (parsed rules)).determinize.toOption = some (letter optional)) :
    ∃ c, compileRules {} rules = .ok c ∧ c.dfa = letter optional := by
  have hlenient : ({} : Options).skipInvalidRules = true := rfl
  obtain ⟨c,hc⟩ := exists_compileRules hlenient rules
  obtain ⟨hbuilt,_,hminimized⟩ := phases_of_compileRules hc
  obtain ⟨m,hm,hdfa⟩ := hminimized rfl
  have hletter : c.built = letter optional := by
    rw [hbuilt] at h
    exact Option.some.inj h
  -- the two nodes are told apart by the letter, so that minimization changes nothing
  obtain ⟨m',hm',_,hsame⟩ := (reduced_letter optional).minimize_self
  rw [hletter] at hm
  obtain rfl : m' = m := Except.ok.inj (hm'.symm.trans hm)
  exact ⟨c,hc,hdfa.trans hsame⟩

/-- Nothing on the tables tells whether the letter may be left out. -/
theorem ofDfa_letter (optional : Bool) : Tables.ofDfa (letter optional) = Tables.ofDfa (letter true) := rfl

theorem not_entered_letter : ¬ (letter true).Entered 0 := by
  unfold Dfa.Entered
  decide

end Letter

/-- Both nodes are final, but the tables only tell so of the one that the letter leads to. -/
theorem compileRules_exports_of_optional_letter :
    ∃ c, compileRules {} [⟨"id", "a?", 1, 4⟩] = .ok c ∧
      (Tables.ofDfa c.dfa).TellsNames 1 ["id"] ∧ ¬ (Tables.ofDfa c.dfa).TellsNames 0 ["id"] ∧
      (Tables.ofDfa c.dfa).accepts [97] ["id"] = true := by
  obtain ⟨c,hc,hdfa⟩ := exists_letter [⟨"id", "a?", 1, 4⟩] true (by decide +kernel)
  obtain ⟨htells,haccepts⟩ := compileRules_exports hc
  refine ⟨c,hc,?_⟩
  rw [hdfa] at htells haccepts ⊢
  refine ⟨?_,fun hstart => not_entered_letter ?_,?_⟩
  · exact (htells 1 (by decide)).mpr fun h => absurd h (by decide)
  · exact (htells 0 (by decide)).mp hstart rfl
  · rw [haccepts [97] ["id"] (.inl (by decide))]
    decide

/-- A start node that nothing enters: the rule for the letter has the same tables, whether or not the letter
may be left out. -/
theorem names_of_start_lost :
    ∃ c d, compileRules {} [⟨"id", "a?", 1, 4⟩] = .ok c ∧ compileRules {} [⟨"id", "a", 1, 4⟩] = .ok d ∧
      c.dfa.isFinal c.dfa.start = true ∧
      ¬ (Tables.ofDfa c.dfa).TellsNames c.dfa.start (c.dfa.names c.dfa.start) ∧
      Tables.ofDfa c.dfa = Tables.ofDfa d.dfa ∧ (Runner.accepts c.dfa [] []).1 = true ∧
      (Runner.accepts d.dfa [] []).1 = false := by
  obtain ⟨c,hc,hdfa⟩ := exists_letter [⟨"id", "a?", 1, 4⟩] true (by decide +kernel)
  obtain ⟨d,hd,hdfa'⟩ := exists_letter [⟨"id", "a", 1, 4⟩] false (by decide +kernel)
  refine ⟨c,d,hc,hd,?_⟩
  rw [hdfa,hdfa']
  have hfinal : (letter true).isFinal 0 = true := by decide
  refine ⟨hfinal,?_,(ofDfa_letter false).symm,by decide,by decide⟩
  exact fun h => not_entered_letter ((Tables.tellsNames_iff hfinal).mp h)

end LexAutomata.Compile
