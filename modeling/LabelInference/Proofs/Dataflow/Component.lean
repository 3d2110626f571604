import LabelInference.Dataflow.Component
import LabelInference.Proofs.Dataflow.Search

namespace LabelInference.Dataflow

universe u v

section Searches

variable {n : Nat} {successors : Fin n → List (Fin n)}

theorem unseen_of_mem_found {seen : Vector Bool n} {v w : Fin n}
    (h : w ∈ finishOrder successors seen [.enter v]) : seen.get w = false :=
  (leave_or_unseen h).resolve_left (by simp [mem_leaves])

theorem nodup_found {seen : Vector Bool n} {v : Fin n} :
    (finishOrder successors seen [.enter v]).Nodup :=
  nodup_finishOrder List.nodup_nil (by simp [mem_leaves])

theorem unseen_of_mem_searches {seen : Vector Bool n} {starts c : List (Fin n)} {v : Fin n}
    (hc : c ∈ searches successors seen starts) (hv : v ∈ c) : seen.get v = false := by
  fun_induction searches successors seen starts with
  | case1 => cases hc
  | case2 seen u starts _ ih => exact ih hc
  | case3 seen u starts _ found ih =>
    rcases List.mem_cons.mp hc with rfl | hc
    · exact unseen_of_mem_found hv
    · have hmark := ih hc
      refine Bool.eq_false_iff.mpr fun hseen => ?_
      rw [get_mark.mpr (.inl hseen)] at hmark
      cases hmark

theorem nodup_of_mem_searches {seen : Vector Bool n} {starts c : List (Fin n)}
    (hc : c ∈ searches successors seen starts) : c.Nodup := by
  fun_induction searches successors seen starts with
  | case1 => cases hc
  | case2 seen u starts _ ih => exact ih hc
  | case3 seen u starts _ found ih =>
    rcases List.mem_cons.mp hc with rfl | hc
    · exact nodup_found
    · exact ih hc

theorem exists_search_of_mem {seen : Vector Bool n} {starts : List (Fin n)} {v : Fin n}
    (hv : v ∈ starts) : seen.get v = true ∨ ∃ c ∈ searches successors seen starts, v ∈ c := by
  fun_induction searches successors seen starts with
  | case1 => cases hv
  | case2 seen u starts hu ih =>
    rcases List.mem_cons.mp hv with rfl | hv
    · exact .inl hu
    · exact ih hv
  | case3 seen u starts hu found ih =>
    have hfound : u ∈ found := (seen_or_mem_of_enter List.mem_cons_self).resolve_left hu
    rcases List.mem_cons.mp hv with rfl | hv
    · exact .inr ⟨found, List.mem_cons_self, hfound⟩
    · rcases ih hv with hseen | ⟨c, hc, hvc⟩
      · rcases get_mark.mp hseen with hseen | hmem
        · exact .inl hseen
        · exact .inr ⟨found, List.mem_cons_self, hmem⟩
      · exact .inr ⟨c, List.mem_cons_of_mem _ hc, hvc⟩

-- What a search finds, and the successors of it, no later search finds.
theorem pairwise_searches {seen : Vector Bool n} {starts : List (Fin n)} :
    (searches successors seen starts).Pairwise fun c d =>
      List.Disjoint c d ∧ ∀ u ∈ c, ∀ w ∈ successors u, w ∉ d := by
  fun_induction searches successors seen starts with
  | case1 => exact .nil
  | case2 seen u starts _ ih => exact ih
  | case3 seen u starts _ found ih =>
    refine List.pairwise_cons.mpr ⟨fun d hd => ?_, ih⟩
    have hlater : ∀ w, seen.get w = true ∨ w ∈ found → w ∉ d := by
      intro w hw hwd
      have hunseen := unseen_of_mem_searches hd hwd
      rw [get_mark.mpr hw] at hunseen
      cases hunseen
    refine ⟨fun w hw => hlater w (.inr hw), fun v hv w hw => hlater w ?_⟩
    exact seen_or_mem_of_successor hv (by simp [mem_leaves]) hw

end Searches

namespace Graph

variable {n : Nat} {ν : Type u} {ε : Type v}

-- Lists of nodes in an order that suits a forward analysis: each node is in one list, once, and the
-- arcs into it come from its own list or an earlier one.
structure IsLayering (g : Graph n ν ε) (cs : List (List (Fin n))) : Prop where
  nodup : ∀ c ∈ cs, c.Nodup
  covers : ∀ v, ∃ c ∈ cs, v ∈ c
  forward : cs.Pairwise fun c d => List.Disjoint c d ∧ ∀ u ∈ c, ∀ w ∈ g.predecessors u, w ∉ d

theorem components_isLayering (g : Graph n ν ε) : g.IsLayering g.components where
  nodup := by
    intro c hc
    obtain ⟨found, hfound, rfl⟩ := List.mem_map.mp hc
    exact (List.mergeSort_perm _ _).nodup_iff.mpr (nodup_of_mem_searches hfound)
  covers := by
    intro v
    have hstart : v ∈ (searchOrder g.successors).reverse :=
      List.mem_reverse.mpr (mem_searchOrder v)
    have hsearch : (Vector.replicate n false).get v = true ∨
        ∃ c ∈ searches g.predecessors (.replicate n false) (searchOrder g.successors).reverse, v ∈ c :=
      exists_search_of_mem hstart
    obtain ⟨found, hfound, hv⟩ := hsearch.resolve_left (Bool.eq_false_iff.mp get_replicate_false)
    exact ⟨_, List.mem_map_of_mem hfound, List.mem_mergeSort.mpr hv⟩
  forward := by
    refine List.pairwise_map.mpr (pairwise_searches.imp ?_)
    intro c d h
    simpa only [List.Disjoint, List.mem_mergeSort] using h

end Graph

end LabelInference.Dataflow
