import LabelInference.Proofs.Dataflow.Component
import LabelInference.Proofs.Dataflow.Equations
import LabelInference.Proofs.Dataflow.Exploration

namespace LabelInference.Dataflow

universe u v

open Relation

variable {n : Nat} {ν : Type u} {ε : Type v} {g : Graph n ν ε}

namespace Graph

def Reaches (g : Graph n ν ε) (u w : Fin n) : Prop :=
  ReflTransGen (fun x y => y ∈ g.successors x) u w

-- Every list holds the nodes of one strongly connected component, each of them once, and no arc leads
-- to an earlier list. That a list holds all the nodes of its component need not be asked for
-- (`mem_iff_reaches`): an arc that led out of it could not be followed back.
structure IsComponentOrder (g : Graph n ν ε) (cs : List (List (Fin n))) : Prop
    extends g.IsLayering cs where
  nonempty : [] ∉ cs
  connected : ∀ c ∈ cs, ∀ u ∈ c, ∀ w ∈ c, g.Reaches u w

section Order

variable {cs before after : List (List (Fin n))} {c : List (Fin n)} {u w : Fin n}

-- What can be reached from a list is in that list or a later one.
theorem IsLayering.exists_mem_of_reaches (h : g.IsLayering (before ++ after))
    (hu : ∃ c ∈ after, u ∈ c) (hpath : g.Reaches u w) : ∃ c ∈ after, w ∈ c := by
  induction hpath with
  | refl => exact hu
  | @tail x y _ hstep ih =>
    obtain ⟨c, hc, hx⟩ := ih
    obtain ⟨d, hd, hy⟩ := h.covers y
    rcases List.mem_append.mp hd with hd | hd
    · have hforward := (List.pairwise_append.mp h.forward).2.2 d hd c hc
      exact absurd hx (hforward.2 y hy x (mem_successors_iff_mem_predecessors.mp hstep))
    · exact ⟨d, hd, hy⟩

theorem IsComponentOrder.mem_iff_reaches (h : g.IsComponentOrder cs) (hc : c ∈ cs) (hu : u ∈ c) :
    w ∈ c ↔ g.Reaches u w ∧ g.Reaches w u := by
  constructor
  · intro hw
    exact ⟨h.connected c hc u hu w hw, h.connected c hc w hw u hu⟩
  · rintro ⟨hto, hback⟩
    obtain ⟨before, after, rfl⟩ := List.append_of_mem hc
    obtain ⟨d, hd, hw⟩ := h.toIsLayering.exists_mem_of_reaches ⟨c, List.mem_cons_self, hu⟩ hto
    rcases List.mem_cons.mp hd with rfl | hd
    · exact hw
    · have hlayering : g.IsLayering ((before ++ [c]) ++ after) := by
        rw [List.append_assoc, List.singleton_append]
        exact h.toIsLayering
      obtain ⟨e, he, hue⟩ := hlayering.exists_mem_of_reaches ⟨d, hd, hw⟩ hback
      have hforward := (List.pairwise_append.mp hlayering.forward).2.2 c
        (List.mem_append_right _ List.mem_cons_self) e he
      exact absurd hue (hforward.1 hu)

end Order

-- A path against the arcs, walked along them.
theorem stepWithin_successors {S : Fin n → Prop} {u w : Fin n}
    (h : ReflTransGen (StepWithin g.predecessors S) u w) :
    ReflTransGen (StepWithin g.successors S) w u := by
  refine reflTransGen_swap.mp (ReflTransGen.mono (fun x y hstep => ?_) u w h)
  exact ⟨mem_successors_iff_mem_predecessors.mpr hstep.1, hstep.2.2, hstep.2.1⟩

-- Backwards through the finish order, a node that is met first leads to whatever leads to it through nodes
-- not met before. All nodes before `v` have been seen.
theorem reaches_of_mem_found {seen : Vector Bool n} {before after : List (Fin n)} {v w : Fin n}
    (horder : (searchOrder g.successors).reverse = before ++ v :: after)
    (hbefore : ∀ u ∈ before, seen.get u = true)
    (hw : w ∈ finishOrder g.predecessors seen [.enter v]) : g.Reaches v w ∧ g.Reaches w v := by
  have hfound : Explores g.predecessors seen [v] (finishOrder g.predecessors seen [.enter v]) :=
    explores_finishOrder seen [v]
  obtain ⟨u, hu, _, hback⟩ := hfound.reached hw
  rw [List.mem_singleton.mp hu] at hback
  have hpath := stepWithin_successors hback
  refine ⟨?_, StepWithin.forget hpath⟩
  have hsplit : searchOrder g.successors = after.reverse ++ v :: before.reverse := by
    rw [← List.reverse_reverse (searchOrder g.successors), horder, List.reverse_append,
      List.reverse_cons, List.append_assoc, List.singleton_append]
  have hunseen : ∀ x, seen.get x = false → x ∉ before := by
    intro x hx hmem
    rw [hbefore x hmem] at hx
    cases hx
  have hmem : w ∈ searchOrder g.successors := mem_searchOrder w
  rw [hsplit, List.mem_append, List.mem_cons, List.mem_reverse, List.mem_reverse] at hmem
  rcases hmem with hmem | rfl | hmem
  · have hexplores : Explores g.successors (.replicate n false) (List.finRange n)
        (searchOrder g.successors) := explores_finishOrder _ _
    refine hexplores.reaches_back hsplit (List.mem_reverse.mpr hmem) ?_
    refine StepWithin.mono (fun x hx => ⟨get_replicate_false, ?_⟩) hpath
    rw [List.mem_reverse]
    exact hunseen x hx
  · exact .refl
  · exact absurd hmem (hunseen w (hfound.unseen hw))

theorem exists_root_of_mem_searches {seen : Vector Bool n} {starts : List (Fin n)} :
    ∀ before : List (Fin n), (searchOrder g.successors).reverse = before ++ starts →
      (∀ v ∈ before, seen.get v = true) → ∀ c ∈ searches g.predecessors seen starts,
        ∃ v ∈ c, ∀ w ∈ c, g.Reaches v w ∧ g.Reaches w v := by
  -- the start at hand joins the nodes before: it has been seen, or its search finds it
  fun_induction searches g.predecessors seen starts with
  | case1 =>
    intro _ _ _ c hc
    cases hc
  | case2 seen v starts hseen ih =>
    intro before horder hbefore
    refine ih (before ++ [v]) ?_ ?_
    · rw [horder, List.append_assoc, List.singleton_append]
    · rw [List.forall_mem_append, List.forall_mem_singleton]
      exact ⟨hbefore, hseen⟩
  | case3 seen v starts hunseen found ih =>
    intro before horder hbefore
    have hv : v ∈ found := (seen_or_mem_of_enter List.mem_cons_self).resolve_left hunseen
    refine List.forall_mem_cons.mpr ⟨⟨v, hv, fun w hw => ?_⟩, ih (before ++ [v]) ?_ ?_⟩
    · exact reaches_of_mem_found horder hbefore hw
    · rw [horder, List.append_assoc, List.singleton_append]
    · rw [List.forall_mem_append, List.forall_mem_singleton]
      exact ⟨fun u hu => get_mark.mpr (.inl (hbefore u hu)), get_mark.mpr (.inr hv)⟩

theorem exists_root {c : List (Fin n)} (hc : c ∈ g.components) :
    ∃ v ∈ c, ∀ w ∈ c, g.Reaches v w ∧ g.Reaches w v := by
  obtain ⟨found, hfound, rfl⟩ := List.mem_map.mp hc
  have h := exists_root_of_mem_searches [] rfl (List.forall_mem_nil _) found hfound
  simpa only [List.mem_mergeSort] using h

theorem components_isComponentOrder (g : Graph n ν ε) : g.IsComponentOrder g.components where
  toIsLayering := g.components_isLayering
  nonempty := by
    intro hc
    obtain ⟨v, hv, _⟩ := exists_root hc
    cases hv
  connected := by
    intro c hc u hu w hw
    obtain ⟨v, _, hroot⟩ := exists_root hc
    exact (hroot u hu).2.trans (hroot w hw).1

end Graph

end LabelInference.Dataflow
