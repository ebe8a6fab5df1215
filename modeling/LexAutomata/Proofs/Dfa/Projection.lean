import LexAutomata.Proofs.Dfa.Quotient

namespace LexAutomata.Dfa

variable {d m : Dfa} {f : Nat → Nat} {blocks : Partition} {byName : Bool} {block : NodeSet}

/-- The nodes of `d` are mapped onto those of `m`, and a node has the names of all that are mapped to
it. -/
structure Projects (d m : Dfa) (f : Nat → Nat) : Prop where
  lt : ∀ id < d.size, f id < m.size
  onto : ∀ k < m.size, ∃ id < d.size, f id = k
  start_eq : m.start = f d.start
  next?_eq : ∀ id < d.size, ∀ x, m.next? (f id) x = (d.next? id x).map f
  isFinal_eq : ∀ id < d.size, m.isFinal (f id) = d.isFinal id
  mem_names : ∀ id < d.size, ∀ name,
    name ∈ m.names (f id) ↔ ∃ j < d.size, f j = f id ∧ name ∈ d.names j

theorem Projects.refl (d : Dfa) : d.Projects d id where
  lt i hi := hi
  onto k hk := ⟨k,hk,rfl⟩
  start_eq := rfl
  next?_eq i _ x := by rw [Option.map_id]; rfl
  isFinal_eq i _ := rfl
  mem_names i hi name := by
    constructor
    · intro hname
      exact ⟨i,hi,rfl,hname⟩
    · intro hfrom
      obtain ⟨j,_,hj,hname⟩ := hfrom
      rw [show i = j from hj.symm]
      exact hname

theorem Projects.follow?_eq (h : d.Projects m f) {id : Nat} (hid : id < d.size) (w : List UInt8) :
    m.follow? (f id) w = (d.follow? id w).map f := by
  induction w generalizing id with
  | nil => rfl
  | cons x w ih =>
    rw [follow?,follow?,h.next?_eq id hid]
    cases hnext : d.next? id x with
    | none => rfl
    | some target => exact ih (next?_lt hnext)

def Runner.map (f : Nat → Nat) (r : Runner) : Runner := ⟨f r.node, r.failed⟩

theorem Projects.isFinal_map (h : d.Projects m f) {r : Runner} (hr : r.node < d.size) :
    (r.map f).isFinal m = r.isFinal d := by
  rw [Runner.isFinal,Runner.isFinal,Runner.map,h.isFinal_eq r.node hr]

theorem Projects.next_map (h : d.Projects m f) {r : Runner} (hr : r.node < d.size) (x : UInt8) :
    (Runner.next d r x).2.node < d.size ∧
      (Runner.next m (r.map f) x).2 = (Runner.next d r x).2.map f := by
  obtain ⟨id,failed⟩ := r
  cases failed with
  | true =>
    rw [Runner.map,Runner.next_of_failed rfl,Runner.next_of_failed rfl]
    exact ⟨hr,rfl⟩
  | false =>
    have heq := h.next?_eq id hr x
    cases hnext : d.next? id x with
    | none =>
      rw [hnext] at heq
      rw [Runner.map,Runner.next_of_none hnext,Runner.next_of_none heq]
      exact ⟨hr,rfl⟩
    | some target =>
      rw [hnext] at heq
      rw [Runner.map,Runner.next_of_some hnext,Runner.next_of_some heq]
      exact ⟨next?_lt hnext,rfl⟩

theorem Projects.feed_map (h : d.Projects m f) {r : Runner} (hr : r.node < d.size) (w : List UInt8) :
    (Runner.feed d r w).node < d.size ∧
      Runner.feed m (r.map f) w = (Runner.feed d r w).map f := by
  induction w generalizing r with
  | nil => exact ⟨hr,rfl⟩
  | cons x w ih =>
    obtain ⟨hlt,heq⟩ := h.next_map hr x
    rw [Runner.feed,Runner.feed,List.foldl_cons,List.foldl_cons,heq]
    exact ih hlt

/-- In a stable partition every move of a merged node is one of each node of its block. -/
theorem map_next?_of_moves (hd : d.Deterministic) (h : d.Divided blocks) (hstable : d.Stable blocks)
    (hblock : block ∈ blocks.sets) {id k : Nat} (hid : block.contains id = true) {x : UInt8}
    (hk : Moves (d.mergeBlock byName (blockOf blocks) block).transitions x k) :
    (d.next? id x).map (blockOf blocks) = some k := by
  obtain ⟨i,n,t,hi,hni,ht,htk,hx⟩ := moves_mergeBlock.mp hk
  have hdet : n.Deterministic := hd n (List.mem_of_getElem? hni)
  have hnext : d.next? i x = some t.target := by
    rw [next?_of_node? hni]
    exact hdet.next?_eq_some_iff.mpr ⟨t,ht,rfl,hx⟩
  have hsame := hstable block hblock x id i hid hi
  rw [h.enters?_eq,h.enters?_eq,hnext] at hsame
  rw [hsame,Option.map_some,htk]

theorem next?_mergeBlock (hd : d.Deterministic) (h : d.Divided blocks) (hstable : d.Stable blocks)
    (hblock : block ∈ blocks.sets) {id : Nat} (hid : block.contains id = true) (x : UInt8) :
    (d.mergeBlock byName (blockOf blocks) block).next? x = (d.next? id x).map (blockOf blocks) := by
  cases hmerged : (d.mergeBlock byName (blockOf blocks) block).next? x with
  | some k =>
    exact (map_next?_of_moves hd h hstable hblock hid (DfaNode.moves_of_next? hmerged)).symm
  | none =>
    cases hnext : d.next? id x with
    | none => rfl
    | some target =>
      obtain ⟨n,hn,hntarget⟩ := Option.bind_eq_some_iff.mp hnext
      obtain ⟨t,ht,htarget,hx⟩ := DfaNode.moves_of_next? hntarget
      have hmoves : Moves (d.mergeBlock byName (blockOf blocks) block).transitions x
          (blockOf blocks target) :=
        moves_mergeBlock.mpr ⟨id,n,t,hid,hn,ht,by rw [htarget],hx⟩
      obtain ⟨k,hk⟩ := DfaNode.next?_isSome_of_moves hmoves
      rw [hmerged] at hk
      cases hk

theorem projects_quotient (hd : d.Deterministic) (h : d.Divided blocks) (hstable : d.Stable blocks)
    (halike : ∀ i j, NodeSet.Joined blocks.sets i j → d.Alike byName i j)
    (hnodes : m.nodes = blocks.sets.map (d.mergeBlock byName (blockOf blocks)))
    (hstart : m.start = blockOf blocks d.start) : d.Projects m (blockOf blocks) := by
  have hsize : m.size = blocks.size := by rw [Dfa.size,hnodes,List.length_map]; rfl
  have hnode : ∀ k block, blocks.get? k = some block →
      m.node? k = some (d.mergeBlock byName (blockOf blocks) block) := by
    intro k block hk
    have hk' : blocks.sets[k]? = some block := hk
    rw [node?,hnodes,List.getElem?_map,hk']
    rfl
  have hnames : ∀ k block, blocks.get? k = some block → ∀ name,
      name ∈ m.names k ↔ ∃ i, block.contains i = true ∧ name ∈ d.names i := by
    intro k block hk name
    rw [names_of_node? (hnode k block hk)]
    refine mem_names_mergeBlock fun hbyName i j hi hj => ?_
    exact (halike i j ⟨block,List.mem_of_getElem? hk,hi,hj⟩).2 hbyName
  constructor
  case lt =>
    intro id hid
    rw [hsize]
    exact h.blockOf_lt hid
  case onto =>
    intro k hk
    have hk' : k < blocks.sets.length := by
      rw [hsize] at hk
      exact hk
    obtain ⟨id,hid⟩ := h.nonempty _ (List.getElem_mem hk')
    exact ⟨id,(h.contains_iff (List.getElem?_eq_getElem hk')).mp hid⟩
  case start_eq => exact hstart
  case next?_eq =>
    intro id hid x
    obtain ⟨block,hblock,hcontains⟩ := h.exists_get? hid
    rw [next?_of_node? (hnode _ block hblock)]
    exact next?_mergeBlock hd h hstable (List.mem_of_getElem? hblock) hcontains x
  case isFinal_eq =>
    intro id hid
    obtain ⟨block,hblock,hcontains⟩ := h.exists_get? hid
    have hsame : ∀ i, block.contains i = true → d.isFinal i = d.isFinal id := by
      intro i hi
      exact (halike i id ⟨block,List.mem_of_getElem? hblock,hi,hcontains⟩).1
    rw [Bool.eq_iff_iff,isFinal_iff]
    simp only [hnames _ block hblock]
    constructor
    · intro hfrom
      obtain ⟨name,i,hi,hname⟩ := hfrom
      rw [← hsame i hi]
      exact isFinal_iff.mpr ⟨name,hname⟩
    · intro hfinal
      obtain ⟨name,hname⟩ := isFinal_iff.mp hfinal
      exact ⟨name,id,hcontains,hname⟩
  case mem_names =>
    intro id hid name
    obtain ⟨block,hblock,_⟩ := h.exists_get? hid
    rw [hnames _ block hblock]
    simp only [h.contains_iff hblock,and_assoc]

/-- Nodes that stay together were not told apart before any byte. -/
theorem alike_of_refines (hrefines : d.Refines (d.initialPartition byName) blocks) {i j : Nat}
    (hij : NodeSet.Joined blocks.sets i j) : d.Alike byName i j :=
  (((initialPartition_spec d byName).2 i j).mp (hrefines.finer hij)).2.2

/-- Minimization merges the blocks that the refinement ends with, unless no block has two nodes. -/
theorem minimize_of_refine {count : Nat} (h : d.Divided blocks)
    (hrefine : d.refine d.alphabet.pieces (d.initialPartition byName) 0 = .ok (blocks, count)) :
    ∃ m, d.minimize byName = .ok m ∧
      (m.unchanged = true ∧ m.dfa = d ∧ blocks.size = d.size ∨
        m.unchanged = false ∧ blocks.size < d.size ∧
          m.dfa.nodes = blocks.sets.map (d.mergeBlock byName (blockOf blocks)) ∧
            m.dfa.start = blockOf blocks d.start) := by
  have hle := h.size_le
  simp only [minimize,hrefine]
  rw [if_neg (Nat.not_lt.mpr hle)]
  by_cases hsize : blocks.size = d.size
  · rw [if_pos hsize]
    exact ⟨_,rfl,.inl ⟨rfl,rfl,hsize⟩⟩
  · have hlt : blocks.size < d.size := Nat.lt_of_le_of_ne hle hsize
    obtain ⟨smaller,hquotient,hnodes,hstart⟩ := exists_quotient h byName
    rw [if_neg hsize,hquotient]
    exact ⟨_,rfl,.inr ⟨rfl,hlt,hnodes,hstart⟩⟩

/-- Minimization succeeds, and it merges the blocks of a stable refinement of the initial partition,
unless no block has two nodes. -/
theorem exists_minimize_blocks (d : Dfa) (byName : Bool) :
    ∃ m blocks, d.minimize byName = .ok m ∧ d.Divided blocks ∧
      d.Refines (d.initialPartition byName) blocks ∧ d.Stable blocks ∧
      (m.dfa = d ∧ blocks.size = d.size ∨
        m.dfa.nodes = blocks.sets.map (d.mergeBlock byName (blockOf blocks)) ∧
          m.dfa.start = blockOf blocks d.start) := by
  obtain ⟨blocks,count,hrefine,hdivided,hrefines,hstable⟩ := exists_refine_initialPartition d byName
  obtain ⟨m,hm,hmerged⟩ := minimize_of_refine hdivided hrefine
  refine ⟨m,blocks,hm,hdivided,hrefines,hstable,?_⟩
  rcases hmerged with ⟨_,hsame,hsize⟩ | ⟨_,_,hnodes,hstart⟩
  · exact .inl ⟨hsame,hsize⟩
  · exact .inr ⟨hnodes,hstart⟩

theorem exists_minimize (hd : d.Deterministic) (byName : Bool) :
    ∃ m blocks f, d.minimize byName = .ok m ∧ d.Divided blocks ∧
      d.Refines (d.initialPartition byName) blocks ∧ d.Stable blocks ∧ d.Projects m.dfa f ∧
      ∀ i < d.size, ∀ j < d.size, f i = f j ↔ NodeSet.Joined blocks.sets i j := by
  obtain ⟨m,blocks,hm,hdivided,hrefines,hstable,hmerged⟩ := exists_minimize_blocks d byName
  rcases hmerged with ⟨hsame,hsize⟩ | ⟨hnodes,hstart⟩
  · refine ⟨m,blocks,id,hm,hdivided,hrefines,hstable,hsame ▸ .refl d,fun i hi j _ => ?_⟩
    constructor
    · intro hij
      obtain ⟨s,hs,hsi⟩ := (hdivided.covers i).mpr hi
      exact ⟨s,hs,hsi,(show i = j from hij) ▸ hsi⟩
    · intro hij
      exact hdivided.eq_of_joined (Nat.le_of_eq hsize.symm) hij
  · refine ⟨m,blocks,blockOf blocks,hm,hdivided,hrefines,hstable,?_,fun i hi j hj => ?_⟩
    · have halike := fun i j => alike_of_refines (i := i) (j := j) hrefines
      exact projects_quotient hd hdivided hstable halike hnodes hstart
    · exact hdivided.blockOf_eq_iff hi hj

theorem Projects.mem_names_iff (h : d.Projects m f)
    (hsame : ∀ i < d.size, ∀ j < d.size, f i = f j → ∀ name, name ∈ d.names i ↔ name ∈ d.names j)
    {id : Nat} (hid : id < d.size) {name : String} :
    name ∈ m.names (f id) ↔ name ∈ d.names id := by
  rw [h.mem_names id hid]
  constructor
  · intro hfrom
    obtain ⟨j,hj,hjid,hname⟩ := hfrom
    exact (hsame j hj id hid hjid name).mp hname
  · intro hname
    exact ⟨id,hid,rfl,hname⟩

/-- With names told apart, a node keeps its names. -/
theorem exists_minimize_by_name (hd : d.Deterministic) :
    ∃ m f, d.minimize true = .ok m ∧ d.Projects m.dfa f ∧
      ∀ id < d.size, ∀ name, name ∈ m.dfa.names (f id) ↔ name ∈ d.names id := by
  obtain ⟨m,blocks,f,hm,_,hrefines,_,hprojects,hjoined⟩ := exists_minimize hd true
  refine ⟨m,f,hm,hprojects,fun id hid name => hprojects.mem_names_iff ?_ hid⟩
  intro i hi j hj hij
  exact (alike_of_refines hrefines ((hjoined i hi j hj).mp hij)).2 rfl

theorem Projects.accepts_iff (h : d.Projects m f)
    (hnames : ∀ id < d.size, ∀ name, name ∈ m.names (f id) ↔ name ∈ d.names id) {w : List UInt8}
    {required : List String} :
    (Runner.accepts m w required).1 = true ↔ (Runner.accepts d w required).1 = true := by
  rw [Runner.accepts_iff,Runner.accepts_iff,h.start_eq,h.follow?_eq d.start_lt]
  cases hfollow : d.follow? d.start w with
  | none => simp
  | some target =>
    have htarget := hnames target (follow?_lt d.start_lt hfollow)
    simp [htarget]

/-- Minimization by names changes nothing that a runner shows: after any word the runners of both
automata have failed or not, are final or not, stand at nodes of the same names, and answer the next byte
alike. -/
theorem minimize_preserves_runs (hd : d.Deterministic) :
    ∃ m, d.minimize true = .ok m ∧ ∀ w : List UInt8,
      let r := Runner.feed d (Runner.start d) w
      let s := Runner.feed m.dfa (Runner.start m.dfa) w
      s.failed = r.failed ∧ s.isFinal m.dfa = r.isFinal d ∧
        (∀ name, name ∈ m.dfa.names s.node ↔ name ∈ d.names r.node) ∧
        ∀ b, (Runner.next m.dfa s b).1 = (Runner.next d r b).1 := by
  obtain ⟨m,f,hm,hprojects,hnames⟩ := exists_minimize_by_name hd
  refine ⟨m,hm,fun w => ?_⟩
  have hstart : (Runner.start d).map f = Runner.start m.dfa := by
    rw [Runner.start,Runner.start,hprojects.start_eq]
    rfl
  obtain ⟨hlt,hmap⟩ := hprojects.feed_map (r := Runner.start d) d.start_lt w
  dsimp only
  rw [← hstart,hmap]
  generalize Runner.feed d (Runner.start d) w = r at hlt
  refine ⟨rfl,hprojects.isFinal_map hlt,hnames r.node hlt,fun b => ?_⟩
  obtain ⟨hnext,hmapped⟩ := hprojects.next_map hlt b
  rw [Runner.next_fst,Runner.next_fst,hmapped,hprojects.isFinal_map hnext]

/-- Two final nodes of one name behind different bytes, and a node that nothing leads to. -/
def twins : Dfa where
  nodes := [⟨[⟨.singleton 97, 1⟩, ⟨.singleton 98, 2⟩], []⟩, ⟨[], ["id"]⟩, ⟨[], ["id", "id"]⟩,
    ⟨[⟨.empty, 3⟩], []⟩]
  start := 0
  start_lt := by decide
  target_lt := by decide

theorem minimize_preserves_runs_of_twins :
    ∃ m, twins.minimize true = .ok m ∧
      (Runner.feed m.dfa (Runner.start m.dfa) [98]).isFinal m.dfa = true ∧
      "id" ∈ m.dfa.names (Runner.feed m.dfa (Runner.start m.dfa) [98]).node ∧
      (Runner.feed m.dfa (Runner.start m.dfa) [98, 97]).failed = true := by
  have hdeterministic : twins.Deterministic := by
    unfold Deterministic DfaNode.Deterministic
    decide
  obtain ⟨m,hm,hruns⟩ := minimize_preserves_runs hdeterministic
  refine ⟨m,hm,?_,?_,?_⟩
  · exact (hruns [98]).2.1.trans (by decide)
  · exact ((hruns [98]).2.2.1 "id").mpr (by decide)
  · exact (hruns [98, 97]).1.trans (by decide)

end LexAutomata.Dfa
