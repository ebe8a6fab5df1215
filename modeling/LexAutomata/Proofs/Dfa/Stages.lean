import LexAutomata.Proofs.Dfa.Projection

namespace LexAutomata.Dfa

variable {d : Dfa} {byName : Bool}

/-- Where the refinement stands. -/
structure Stage where
  blocks : Partition
  /-- Whether a block has been split since the pass began. -/
  split : Bool
  /-- The passes begun so far. -/
  passes : Nat
  /-- What the pass has still to go through, with the present piece in front. -/
  pieces : List ByteSet
  /-- The number of the block that is looked at next. -/
  pointer : Nat

/-- What the refinement does next. -/
inductive Turn where
  | finish
  | nextPass
  | nextPiece
  | nextBlock
  | replace (parts : List NodeSet)

/-- A pass is over with its pieces and a piece with the blocks. A block is replaced if it has parts, and
then the pointer stands still. -/
def turn (d : Dfa) (s : Stage) : Except Fault Turn :=
  match s.pieces with
  | [] => .ok (if s.split then .nextPass else .finish)
  | piece :: _ =>
    match s.blocks.get? s.pointer with
    | none => .ok .nextPiece
    | some block =>
      if block.isEmpty then .error .emptyBlock
      else
        match d.refineBlock (blockNumbers d.size 0 s.blocks.sets) piece block with
        | .error f => .error f
        | .ok [] => .error (.lostBlock s.pointer)
        | .ok [_] => .ok .nextBlock
        | .ok parts => .ok (.replace parts)

def after (d : Dfa) (s : Stage) : Turn → Stage
  | .finish => s
  | .nextPass => ⟨s.blocks, false, s.passes + 1, d.alphabet.pieces, 0⟩
  | .nextPiece => ⟨s.blocks, s.split, s.passes, s.pieces.tail, 0⟩
  | .nextBlock => ⟨s.blocks, s.split, s.passes, s.pieces, s.pointer + 1⟩
  | .replace parts => ⟨replaceBlock s.blocks s.pointer parts, true, s.passes, s.pieces, s.pointer⟩

def firstStage (d : Dfa) (byName : Bool) : Stage :=
  ⟨d.initialPartition byName, false, 1, d.alphabet.pieces, 0⟩

def Proceeds (d : Dfa) (s t : Stage) : Prop :=
  ∃ turn, d.turn s = .ok turn ∧ turn ≠ .finish ∧ t = d.after s turn

abbrev Leads (d : Dfa) : Stage → Stage → Prop := Relation.ReflTransGen d.Proceeds

section Turns

variable {blocks next : Partition} {split : Bool} {passes id : Nat} {piece : ByteSet}
  {pieces rest : List ByteSet} {block : NodeSet}

theorem turn_of_none (hid : blocks.get? id = none) :
    d.turn ⟨blocks, split, passes, piece :: rest, id⟩ = .ok .nextPiece := by
  simp only [turn,hid]

theorem turn_of_single {part : NodeSet} (hid : blocks.get? id = some block)
    (hempty : block.isEmpty = false)
    (hparts : d.refineBlock (blockNumbers d.size 0 blocks.sets) piece block = .ok [part]) :
    d.turn ⟨blocks, split, passes, piece :: rest, id⟩ = .ok .nextBlock := by
  simp [turn,hid,hempty,hparts]

theorem turn_of_parts {parts : List NodeSet} (hid : blocks.get? id = some block)
    (hempty : block.isEmpty = false)
    (hparts : d.refineBlock (blockNumbers d.size 0 blocks.sets) piece block = .ok parts)
    (hlength : 2 ≤ parts.length) :
    d.turn ⟨blocks, split, passes, piece :: rest, id⟩ = .ok (.replace parts) := by
  rcases parts with _ | ⟨first,_ | ⟨second,more⟩⟩
  · exact absurd hlength (by decide)
  · exact absurd hlength (by simp)
  · simp [turn,hid,hempty,hparts]

end Turns

section Invariant

/-- The blocks divide the nodes, and the pieces are atoms of the labels. -/
structure Sound (d : Dfa) (s : Stage) : Prop where
  divided : d.Divided s.blocks
  pieces : ∀ piece ∈ s.pieces, piece ∈ d.alphabet.pieces

theorem sound_firstStage (d : Dfa) (byName : Bool) : d.Sound (d.firstStage byName) where
  divided := (initialPartition_spec d byName).1
  pieces _ hpiece := hpiece

/-- A sound stage has a turn, which keeps it sound and adds blocks if it replaces one. -/
theorem Sound.exists_turn {s : Stage} (h : d.Sound s) :
    ∃ t, d.turn s = .ok t ∧ d.Sound (d.after s t) ∧
      ∀ parts, t = .replace parts → s.blocks.size < (d.after s t).blocks.size := by
  obtain ⟨blocks,split,passes,pieces,id⟩ := s
  obtain ⟨hdivided,hpieces⟩ := h
  dsimp only at hdivided hpieces
  cases pieces with
  | nil =>
    cases split with
    | true => exact ⟨.nextPass,rfl,⟨hdivided,fun _ hpiece => hpiece⟩,fun _ hparts => by cases hparts⟩
    | false => exact ⟨.finish,rfl,⟨hdivided,hpieces⟩,fun _ hparts => by cases hparts⟩
  | cons piece rest =>
    cases hid : blocks.get? id with
    | none =>
      refine ⟨.nextPiece,turn_of_none hid,⟨hdivided,?_⟩,fun _ hparts => by cases hparts⟩
      exact fun p hp => hpieces p (List.mem_cons_of_mem _ hp)
    | some block =>
      have hempty := hdivided.isEmpty_eq_false (List.mem_of_getElem? hid)
      have hpiece := hpieces piece List.mem_cons_self
      obtain ⟨x,hx⟩ := d.separates_alphabet.exists_test hpiece
      obtain ⟨parts,hparts,⟨⟨part,rfl⟩,_⟩ | ⟨hlength,hsplits⟩⟩ :=
        refineBlock_cases hdivided hid hpiece hx
      · refine ⟨.nextBlock,turn_of_single hid hempty hparts,⟨hdivided,hpieces⟩,?_⟩
        exact fun _ hreplace => by cases hreplace
      · refine ⟨.replace parts,turn_of_parts hid hempty hparts hlength,⟨hsplits.divided,hpieces⟩,?_⟩
        exact fun _ _ => hsplits.grows

theorem Sound.proceeds {s t : Stage} (h : d.Sound s) (hst : d.Proceeds s t) : d.Sound t := by
  obtain ⟨next,hturn,_,rfl⟩ := hst
  obtain ⟨other,hother,hsound,_⟩ := h.exists_turn
  obtain rfl : other = next := Except.ok.inj (hother.symm.trans hturn)
  exact hsound

theorem Sound.leads {s t : Stage} (h : d.Sound s) (hst : d.Leads s t) : d.Sound t := by
  induction hst with
  | refl => exact h
  | tail _ hlast ih => exact ih.proceeds hlast

end Invariant

section Following

variable {blocks middle next : Partition} {numbers : Array (Option Nat)} {split : Bool}
  {passes id count : Nat} {piece : ByteSet} {pieces rest : List ByteSet}

def Grows (d : Dfa) (blocks next : Partition) : Prop :=
  next = blocks ∨ blocks.size < next.size ∧ next.size ≤ d.size

theorem Grows.trans (h : d.Grows blocks middle) (k : d.Grows middle next) : d.Grows blocks next := by
  rcases k with rfl | ⟨hlt,hle⟩
  · exact h
  · rcases h with rfl | ⟨hfirst,_⟩
    · exact .inr ⟨hlt,hle⟩
    · exact .inr ⟨Nat.lt_trans hfirst hlt,hle⟩

theorem Grows.size_le (h : d.Grows blocks next) : blocks.size ≤ next.size := by
  rcases h with rfl | ⟨hlt,_⟩
  · exact Nat.le_refl _
  · exact Nat.le_of_lt hlt

/-- Whether something has been split after two stretches of turns. -/
theorem Grows.split_eq (h : d.Grows blocks middle) (k : d.Grows middle next) (split : Bool) :
    (split || decide (blocks.size < middle.size) || decide (middle.size < next.size)) =
      (split || decide (blocks.size < next.size)) := by
  have hfirst := h.size_le
  have hlast := k.size_le
  rw [Bool.or_assoc,← Bool.decide_or]
  congr 2
  apply propext
  omega

theorem leads_of_turn {s : Stage} {t : Turn} (hturn : d.turn s = .ok t) (ht : t ≠ .finish) :
    d.Leads s (d.after s t) :=
  .single ⟨t,hturn,ht,rfl⟩

theorem leads_of_splitFrom (split : Bool) (passes : Nat) (rest : List ByteSet)
    (hnumbers : numbers = blockNumbers d.size 0 blocks.sets)
    (h : d.splitFrom piece blocks numbers id = .ok next) :
    d.Grows blocks next ∧ d.Leads ⟨blocks, split, passes, piece :: rest, id⟩
      ⟨next, split || decide (blocks.size < next.size), passes, rest, 0⟩ := by
  fun_induction splitFrom d piece blocks numbers id generalizing split with
  | case1 blocks numbers id hid =>
    obtain rfl : blocks = next := Except.ok.inj h
    rw [decide_eq_false (Nat.lt_irrefl _),Bool.or_false]
    exact ⟨.inl rfl,leads_of_turn (turn_of_none hid) (by simp)⟩
  | case2 => cases h
  | case3 => cases h
  | case4 => cases h
  | case5 blocks numbers id block hid hempty part hparts ih =>
    subst hnumbers
    obtain ⟨hgrows,hleads⟩ := ih split rfl h
    have hturn : d.turn ⟨blocks, split, passes, piece :: rest, id⟩ = .ok .nextBlock :=
      turn_of_single hid (Bool.not_eq_true _ ▸ hempty) hparts
    exact ⟨hgrows,(leads_of_turn hturn (by simp)).trans hleads⟩
  | case6 blocks numbers id block hid hempty parts hnil hsingle hparts replaced hsize =>
    rename_i ih
    subst hnumbers
    have hlength : 2 ≤ parts.length := by
      rcases parts with _ | ⟨first,_ | ⟨second,more⟩⟩
      · exact absurd rfl hnil
      · exact absurd rfl (hsingle first)
      · simp
    obtain ⟨hgrows,hleads⟩ := ih true rfl h
    -- the flag is set from here on, whatever the later turns do
    have hfirst : d.Grows blocks replaced := .inr hsize
    have hturn : d.turn ⟨blocks, split, passes, piece :: rest, id⟩ = .ok (.replace parts) :=
      turn_of_parts hid (Bool.not_eq_true _ ▸ hempty) hparts hlength
    have hsplit := hfirst.split_eq hgrows split
    rw [decide_eq_true hsize.1,Bool.or_true] at hsplit
    rw [← hsplit]
    exact ⟨hfirst.trans hgrows,(leads_of_turn hturn (by simp)).trans hleads⟩
  | case7 => cases h

theorem leads_of_refinePass (split : Bool) (passes : Nat)
    (h : d.refinePass pieces blocks = .ok next) :
    d.Grows blocks next ∧ d.Leads ⟨blocks, split, passes, pieces, 0⟩
      ⟨next, split || decide (blocks.size < next.size), passes, [], 0⟩ := by
  induction pieces generalizing blocks split with
  | nil =>
    obtain rfl : blocks = next := Except.ok.inj h
    rw [decide_eq_false (Nat.lt_irrefl _),Bool.or_false]
    exact ⟨.inl rfl,.refl⟩
  | cons piece rest ih =>
    rw [refinePass] at h
    cases hsplit : d.splitFrom piece blocks (blockNumbers d.size 0 blocks.sets) 0 with
    | error f =>
      rw [hsplit] at h
      cases h
    | ok middle =>
      rw [hsplit] at h
      obtain ⟨hfirst,hleads⟩ := leads_of_splitFrom split passes rest rfl hsplit
      obtain ⟨hgrows,hrest⟩ := ih _ h
      rw [← hfirst.split_eq hgrows split]
      exact ⟨hfirst.trans hgrows,hleads.trans hrest⟩

theorem leads_of_refine (h : d.refine d.alphabet.pieces blocks passes = .ok (next, count)) :
    d.Leads ⟨blocks, false, passes + 1, d.alphabet.pieces, 0⟩ ⟨next, false, count, [], 0⟩ := by
  fun_induction refine d d.alphabet.pieces blocks passes with
  | case1 => cases h
  | case2 blocks passes middle hpass hsize ih =>
    obtain ⟨_,hleads⟩ := leads_of_refinePass false (passes + 1) hpass
    rw [decide_eq_true hsize.1,Bool.or_true] at hleads
    have hturn : d.turn ⟨middle, true, passes + 1, [], 0⟩ = .ok .nextPass := rfl
    exact (hleads.trans (leads_of_turn hturn (by simp))).trans (ih h)
  | case3 blocks passes middle hpass hsize =>
    obtain ⟨rfl,rfl⟩ : middle = next ∧ passes + 1 = count := by simpa using h
    obtain ⟨hgrows,hleads⟩ := leads_of_refinePass false (passes + 1) hpass
    obtain rfl := hgrows.resolve_right hsize
    rw [decide_eq_false (Nat.lt_irrefl _),Bool.or_false] at hleads
    exact hleads

theorem Proceeds.unique {s t u : Stage} (h : d.Proceeds s t) (k : d.Proceeds s u) : t = u := by
  obtain ⟨first,hfirst,_,rfl⟩ := h
  obtain ⟨second,hsecond,_,rfl⟩ := k
  rw [Except.ok.inj (hfirst.symm.trans hsecond)]

theorem leads_of_finish {s t last : Stage} (hs : d.Leads s t) (hlast : d.Leads s last)
    (hfinish : d.turn last = .ok .finish) : d.Leads t last := by
  rcases Relation.ReflTransGen.total_of_right_unique (fun _ _ _ h k => h.unique k) hs hlast with
    hleads | hleads
  · exact hleads
  · rcases hleads.cases_head with heq | ⟨_,⟨next,hturn,hne,_⟩,_⟩
    · rw [heq]
    · exact absurd (Except.ok.inj (hturn.symm.trans hfinish)) hne

end Following

/-- Minimization succeeds on every automaton. Whatever stage of the refinement is reached, the blocks
divide the nodes, the next turn is no fault and adds blocks if it replaces one, and the turns go on to one
that finishes. The blocks that are left then are the nodes of the result. -/
theorem minimize_total (d : Dfa) (byName : Bool) :
    ∃ last m, d.minimize byName = .ok m ∧ d.turn last = .ok .finish ∧
      d.refine d.alphabet.pieces (d.initialPartition byName) 0 = .ok (last.blocks, last.passes) ∧
      m.dfa.size = last.blocks.size ∧ 1 ≤ m.dfa.size ∧ m.dfa.size ≤ d.size ∧
      ∀ s, d.Leads (d.firstStage byName) s →
        d.Divided s.blocks ∧ d.Leads s last ∧
        ∃ t, d.turn s = .ok t ∧
          ∀ parts, t = .replace parts → s.blocks.size < (d.after s t).blocks.size := by
  obtain ⟨blocks,count,hrefine,hdivided,_,_⟩ := exists_refine_initialPartition d byName
  obtain ⟨m,hm,hmerged⟩ := minimize_of_refine hdivided hrefine
  have hsize : m.dfa.size = blocks.size := by
    rcases hmerged with ⟨_,hsame,hsize⟩ | ⟨_,_,hnodes,_⟩
    · rw [hsame,hsize]
    · rw [Dfa.size,hnodes,List.length_map]
      rfl
  have hlast : d.Leads (d.firstStage byName) ⟨blocks, false, count, [], 0⟩ := leads_of_refine hrefine
  refine ⟨⟨blocks, false, count, [], 0⟩,m,hm,rfl,hrefine,hsize,?_,?_,fun s hs => ?_⟩
  · exact Nat.lt_of_le_of_lt (Nat.zero_le _) m.dfa.start_lt
  · rw [hsize]
    exact hdivided.size_le
  · have hsound := (d.sound_firstStage byName).leads hs
    obtain ⟨t,hturn,_,hreplace⟩ := hsound.exists_turn
    exact ⟨hsound.divided,leads_of_finish hs hlast rfl,t,hturn,hreplace⟩

end LexAutomata.Dfa
