import LexAutomata.Proofs.Dfa.Equivalence

namespace LexAutomata.Dfa

variable {d e m : Dfa} {f : Nat → Nat} {i j k p : Nat} {u v w : List UInt8} {x : UInt8} {name : String}

/-- Every node is reached, and what a non-empty word reaches leads on to a final node. -/
structure Trim (d : Dfa) : Prop where
  reached : ∀ i < d.size, ∃ w, d.follow? d.start w = some i
  live : ∀ w i, w ≠ [] → d.follow? d.start w = some i →
    ∃ v target, d.follow? i v = some target ∧ d.isFinal target = true

/-- The same answers on every word under every name. -/
def Agree (d e : Dfa) : Prop :=
  ∀ w name, (Runner.accepts d w [name]).1 = (Runner.accepts e w [name]).1

/-- The nodes of `d` are those of `e` under other numbers. -/
structure Isomorphism (d e : Dfa) (f : Nat → Nat) : Prop where
  bijOn : Set.BijOn f {i | i < d.size} {k | k < e.size}
  start_eq : f d.start = e.start
  next?_eq : ∀ i < d.size, ∀ x, e.next? (f i) x = (d.next? i x).map f
  mem_names : ∀ i < d.size, ∀ name, name ∈ e.names (f i) ↔ name ∈ d.names i

theorem Agree.symm (h : d.Agree e) : e.Agree d := fun w name => (h w name).symm

section Continuations

theorem accepts_append_iff (hu : d.follow? d.start u = some i) (w : List UInt8) (name : String) :
    (Runner.accepts d (u ++ w) [name]).1 = true ↔
      ∃ target, d.follow? i w = some target ∧ name ∈ d.names target := by
  rw [Runner.accepts_iff,follow?_append,hu,Option.bind_some]
  simp

theorem exists_follow?_of_append (h : d.follow? i (u ++ v) = some p) :
    ∃ q, d.follow? i u = some q := by
  rw [follow?_append] at h
  obtain ⟨q,hq,_⟩ := Option.bind_eq_some_iff.mp h
  exact ⟨q,hq⟩

theorem Trim.exists_accepted (hd : d.Trim) (hu : d.follow? d.start u = some i) (hw : w ≠ [])
    (hp : d.follow? i w = some p) :
    ∃ z name, (Runner.accepts d (u ++ (w ++ z)) [name]).1 = true := by
  have hreached : d.follow? d.start (u ++ w) = some p := by
    rw [follow?_append,hu]
    exact hp
  have hne : u ++ w ≠ [] := by simp [hw]
  obtain ⟨z,target,hz,hfinal⟩ := hd.live _ _ hne hreached
  obtain ⟨name,hname⟩ := isFinal_iff.mp hfinal
  refine ⟨z,name,(accepts_append_iff hu _ _).mpr ⟨target,?_,hname⟩⟩
  rw [follow?_append,hp]
  exact hz

/-- Words after which the same words are accepted lead to equivalent nodes. -/
theorem Trim.equivalent_of_continuations (hd : d.Trim) (hu : d.follow? d.start u = some i)
    (hv : d.follow? d.start v = some k)
    (hsame : ∀ w name,
      (Runner.accepts d (u ++ w) [name]).1 = (Runner.accepts d (v ++ w) [name]).1) :
    d.Equivalent true i k := by
  -- what leads on from one node begins an accepted word, which the other node has to go along with
  have hgoes : ∀ {u v i k}, d.follow? d.start u = some i → d.follow? d.start v = some k →
      (∀ w name, (Runner.accepts d (u ++ w) [name]).1 = (Runner.accepts d (v ++ w) [name]).1) →
      ∀ w p, d.follow? i w = some p → ∃ q, d.follow? k w = some q := by
    intro u v i k hu hv hsame w p hp
    by_cases hw : w = []
    · rw [hw]
      exact ⟨k,rfl⟩
    · obtain ⟨z,name,hz⟩ := hd.exists_accepted hu hw hp
      rw [hsame] at hz
      obtain ⟨target,htarget,_⟩ := (accepts_append_iff hv _ _).mp hz
      exact exists_follow?_of_append htarget
  rw [equivalent_iff_follow?]
  intro w
  have hnames : ∀ p q, d.follow? i w = some p → d.follow? k w = some q →
      ∀ name, name ∈ d.names p ↔ name ∈ d.names q := by
    intro p q hp hq name
    have hleft := accepts_append_iff hu w name
    have hright := accepts_append_iff hv w name
    rw [hsame,hright] at hleft
    simpa [hp,hq] using hleft.symm
  cases hp : d.follow? i w with
  | none =>
    cases hq : d.follow? k w with
    | none => exact .none
    | some q =>
      have hback := hgoes hv hu (fun w name => (hsame w name).symm) w q hq
      simp [hp] at hback
  | some p =>
    obtain ⟨q,hq⟩ := hgoes hu hv hsame w p hp
    rw [hq]
    have hpq := hnames p q hp hq
    have hfinal : d.isFinal p = d.isFinal q := by
      rw [Bool.eq_iff_iff,isFinal_iff,isFinal_iff]
      exact exists_congr hpq
    exact .some ⟨hfinal,fun _ => hpq⟩

end Continuations

section Pairs

/-- Some word leads to both nodes. -/
def Paired (d e : Dfa) (i j : Nat) : Prop :=
  ∃ w, d.follow? d.start w = some i ∧ e.follow? e.start w = some j

theorem Paired.symm (h : d.Paired e i j) : e.Paired d j i := by
  obtain ⟨w,hi,hj⟩ := h
  exact ⟨w,hj,hi⟩

theorem Paired.lt (h : d.Paired e i j) : j < e.size := by
  obtain ⟨w,_,hj⟩ := h
  exact follow?_lt e.start_lt hj

theorem Paired.mem_names (hagree : d.Agree e) (h : d.Paired e i j) :
    name ∈ e.names j ↔ name ∈ d.names i := by
  obtain ⟨w,hi,hj⟩ := h
  have hleft := accepts_append_iff hi [] name
  have hright := accepts_append_iff hj [] name
  rw [hagree,hright] at hleft
  simpa [follow?] using hleft

theorem Trim.exists_follow? (hd : d.Trim) (hagree : d.Agree e)
    (hi : d.follow? d.start w = some i) : ∃ j, e.follow? e.start w = some j := by
  by_cases hw : w = []
  · rw [hw]
    exact ⟨e.start,rfl⟩
  · obtain ⟨z,name,hz⟩ := hd.exists_accepted (u := []) rfl hw hi
    rw [hagree] at hz
    obtain ⟨target,htarget,_⟩ := (accepts_append_iff (u := []) rfl _ _).mp hz
    exact exists_follow?_of_append htarget

theorem Trim.exists_paired (hd : d.Trim) (hagree : d.Agree e) (hi : i < d.size) :
    ∃ j, d.Paired e i j := by
  obtain ⟨w,hw⟩ := hd.reached i hi
  obtain ⟨j,hj⟩ := hd.exists_follow? hagree hw
  exact ⟨j,w,hw,hj⟩

theorem Paired.next? (hd : d.Trim) (hagree : d.Agree e) (h : d.Paired e i j)
    (hp : d.next? i x = some p) : ∃ q, e.next? j x = some q ∧ d.Paired e p q := by
  obtain ⟨w,hi,hj⟩ := h
  have hlonger : d.follow? d.start (w ++ [x]) = some p := by
    rw [follow?_concat,hi]
    exact hp
  obtain ⟨q,hq⟩ := hd.exists_follow? hagree hlonger
  refine ⟨q,?_,w ++ [x],hlonger,hq⟩
  rwa [follow?_concat,hj] at hq

/-- A node of any agreeing automaton is paired with one node at most. -/
theorem Paired.unique (hd : d.Trim) (hreduced : d.Reduced true) (hagree : d.Agree e)
    (hi : d.Paired e i j) (hk : d.Paired e k j) : i = k := by
  obtain ⟨u,hu,hu'⟩ := hi
  obtain ⟨v,hv,hv'⟩ := hk
  have hsame : ∀ w name,
      (Runner.accepts d (u ++ w) [name]).1 = (Runner.accepts d (v ++ w) [name]).1 := by
    intro w name
    rw [hagree,hagree,Bool.eq_iff_iff,accepts_append_iff hu',accepts_append_iff hv']
  have hequivalent := hd.equivalent_of_continuations hu hv hsame
  exact hreduced i (follow?_lt d.start_lt hu) k (follow?_lt d.start_lt hv) hequivalent

end Pairs

theorem size_le_of_agree (hd : d.Trim) (hreduced : d.Reduced true) (hagree : d.Agree e) :
    d.size ≤ e.size := by
  have hpaired : ∀ i : Fin d.size, ∃ j, d.Paired e i j := fun i => hd.exists_paired hagree i.isLt
  choose g hg using hpaired
  have hinjective : Function.Injective fun i : Fin d.size => (⟨g i,(hg i).lt⟩ : Fin e.size) := by
    intro i k hik
    have hsame : g i = g k := Fin.ext_iff.mp hik
    have hk := hg k
    rw [← hsame] at hk
    exact Fin.ext ((hg i).unique hd hreduced hagree hk)
  simpa using Fintype.card_le_of_injective _ hinjective

theorem exists_isomorphism (hd : d.Trim) (hdreduced : d.Reduced true) (he : e.Trim)
    (hereduced : e.Reduced true) (hagree : d.Agree e) : ∃ f, d.Isomorphism e f := by
  have hpaired : ∀ i, ∃ j, i < d.size → d.Paired e i j := by
    intro i
    by_cases hi : i < d.size
    · obtain ⟨j,hj⟩ := hd.exists_paired hagree hi
      exact ⟨j,fun _ => hj⟩
    · exact ⟨0,fun h => absurd h hi⟩
  choose f hf using hpaired
  -- no node has two partners, so whatever a word pairs is what was chosen
  have honly : ∀ i < d.size, ∀ j, d.Paired e i j → f i = j := fun i hi j hj =>
    (hf i hi).symm.unique he hereduced hagree.symm hj.symm
  refine ⟨f,⟨?_,?_,?_⟩,?_,?_,?_⟩
  · intro i hi
    exact (hf i hi).lt
  · intro i hi k hk hik
    have hk' := hf k hk
    rw [← hik] at hk'
    exact (hf i hi).unique hd hdreduced hagree hk'
  · intro k hk
    obtain ⟨i,hki⟩ := he.exists_paired hagree.symm hk
    exact ⟨i,hki.lt,honly i hki.lt k hki.symm⟩
  · exact honly d.start d.start_lt e.start ⟨[],rfl,rfl⟩
  · intro i hi x
    cases hp : d.next? i x with
    | some p =>
      obtain ⟨q,hq,hpq⟩ := (hf i hi).next? hd hagree hp
      rw [hq,Option.map_some,honly p (next?_lt hp) q hpq]
    | none =>
      cases hq : e.next? (f i) x with
      | none => rfl
      | some q =>
        obtain ⟨p,hp',_⟩ := (hf i hi).symm.next? he hagree.symm hq
        rw [hp] at hp'
        cases hp'
  · intro i hi name
    exact (hf i hi).mem_names hagree

theorem Projects.trim (h : d.Projects m f) (hd : d.Trim) : m.Trim where
  reached k hk := by
    obtain ⟨i,hi,rfl⟩ := h.onto k hk
    obtain ⟨w,hw⟩ := hd.reached i hi
    refine ⟨w,?_⟩
    rw [h.start_eq,h.follow?_eq d.start_lt,hw]
    rfl
  live w k hne hk := by
    rw [h.start_eq,h.follow?_eq d.start_lt] at hk
    obtain ⟨i,hi,rfl⟩ := Option.map_eq_some_iff.mp hk
    obtain ⟨v,target,hv,hfinal⟩ := hd.live w i hne hi
    have hi' := follow?_lt d.start_lt hi
    refine ⟨v,f target,?_,?_⟩
    · rw [h.follow?_eq hi',hv]
      rfl
    · rw [h.isFinal_eq target (follow?_lt hi' hv)]
      exact hfinal

end LexAutomata.Dfa
