import LexAutomata.Proofs.Dfa.WellFormed
import LexAutomata.Proofs.TaggedNfa.Live

namespace LexAutomata.TaggedNfa

variable {n : TaggedNfa} {added : List (String × Fragment)} {f : Fragment} {name : String}
  {table : NodeSet.Table} {d : Dfa}

section Names

theorem eraseDups_concat (names : List String) (name : String) :
    (names ++ [name]).eraseDups =
      if name ∈ names then names.eraseDups else names.eraseDups ++ [name] := by
  rw [List.eraseDups_append]
  by_cases h : name ∈ names
  · simp [List.removeAll,h]
  · simp [List.removeAll,h,List.eraseDups_cons]

theorem nodup_eraseDups (names : List String) : names.eraseDups.Nodup := by
  induction names using List.reverseRecOn with
  | nil => simp
  | append_singleton names name ih =>
    rw [eraseDups_concat]
    split
    · exact ih
    · rename_i hnew
      rw [← List.concat_eq_append]
      exact ih.concat fun hname => hnew (List.mem_eraseDups.mp hname)

theorem eraseDups_sublist (names : List String) : names.eraseDups.Sublist names := by
  induction names using List.reverseRecOn with
  | nil => simp
  | append_singleton names name ih =>
    rw [eraseDups_concat]
    split
    · exact ih.trans (List.sublist_append_left _ _)
    · exact ih.append (List.Sublist.refl _)

theorem names_add (n : TaggedNfa) (f : Fragment) (name : String) :
    (n.add f name).finals.map (·.name) =
      if name ∈ n.finals.map (·.name) then n.finals.map (·.name)
      else n.finals.map (·.name) ++ [name] := by
  cases hfind : n.finals.find? (fun known => known.name == name) with
  | none =>
    have hnew : name ∉ n.finals.map (·.name) := by simpa using hfind
    rw [add_of_new hfind,if_neg hnew,List.map_append]
    rfl
  | some k =>
    have hname : k.name = name := by simpa using List.find?_some hfind
    have hknown : name ∈ n.finals.map (·.name) :=
      List.mem_map.mpr ⟨k,List.mem_of_find?_eq_some hfind,hname⟩
    rw [if_pos hknown]
    cases hconnected : k.connected with
    | true => rw [add_of_connected hfind hconnected]
    | false =>
      rw [add_of_single hfind hconnected,List.map_map]
      refine List.map_congr_left fun l _ => ?_
      dsimp only [Function.comp]
      split
      · rename_i hl
        exact hl.symm
      · rfl

theorem names_addAll (added : List (String × Fragment)) :
    (addAll added).finals.map (·.name) = (added.map (·.1)).eraseDups := by
  induction added using List.reverseRecOn with
  | nil => rfl
  | append_singleton added p ih =>
    rw [addAll_concat,names_add,ih,List.map_append,List.map_singleton,eraseDups_concat]
    simp only [List.mem_eraseDups]

theorem namesAt_sublist (n : TaggedNfa) (s : NodeSet) :
    (n.namesAt s).Sublist (n.finals.map (·.name)) :=
  (eraseDups_sublist _).trans ((List.filter_sublist).map _)

end Names

theorem Realizes.describes (h : n.Realizes table d) {node : DfaNode} (hnode : node ∈ d.nodes) :
    ∃ s, n.Describes table s node := by
  obtain ⟨id,hid,rfl⟩ := List.mem_iff_getElem.mp hnode
  have hlt : id < table.sets.length := by
    rw [h.described.length_eq]
    exact hid
  exact ⟨_,h.described.get hlt hid⟩

theorem Realizes.wellFormed (h : n.Realizes table d) (hn : n.Bounded) : d.WellFormed where
  nonempty node hnode t ht := by
    obtain ⟨s,hs⟩ := h.describes hnode
    have hpiece : t.label ∈ (n.piecesAt s).pieces := hs.leads.labels ▸ List.mem_map_of_mem ht
    exact (n.separates_piecesAt s).exists_test hpiece
  disjoint node hnode := (h.deterministic node hnode).imp ByteSet.isDisjoint_iff.mp
  target_lt := d.target_lt
  reached i hi := by
    obtain ⟨w,hw⟩ := h.exists_tracks hi
    exact ⟨w,h.follow?_eq hn hw⟩
  nodup_names node hnode := by
    obtain ⟨s,hs⟩ := h.describes hnode
    rw [hs.names]
    exact nodup_eraseDups _

theorem Realizes.productive (h : n.Realizes table d) (hn : n.Bounded) (hlive : n.Live)
    (hfinals : n.finals ≠ []) : d.Productive := by
  intro i hi
  obtain ⟨w,hw⟩ := h.exists_tracks hi
  obtain ⟨q,hq⟩ := h.exists_walk hw
  have hends := hlive q (hq.target_lt hn.target_lt hn.start_lt)
  exact h.exists_final hn (h.follow?_eq hn hw) hq (hends.resolve_right fun hnone => hfinals hnone.2)

end LexAutomata.TaggedNfa
