import LabelInference.Proofs.Dataflow.Connected
import LabelInference.Proofs.Dataflow.Order

namespace LabelInference.Dataflow

universe u v w

open Relation

variable {n : Nat} {ν : Type u} {ε : Type v} {α : Type w} {g : Graph n ν ε}

namespace Graph

-- No path of one or more arcs leads back to where it starts.
def IsAcyclic (g : Graph n ν ε) : Prop :=
  ∀ v, ¬TransGen (fun x y => y ∈ g.successors x) v v

theorem isAcyclic_of_lt (h : ∀ arc ∈ g.arcs, arc.source < arc.target) : g.IsAcyclic := by
  have hlt : ∀ {u w}, TransGen (fun x y => y ∈ g.successors x) u w → u < w := by
    intro u w hpath
    refine TransGen.trans_induction_on hpath (fun hstep => ?_) fun _ _ huv hvw => huv.trans hvw
    obtain ⟨arc, harc, rfl, rfl⟩ := mem_successors.mp hstep
    exact h arc harc
  exact fun v hcycle => lt_irrefl v (hlt hcycle)

namespace IsAcyclic

variable {u v w : Fin n}

theorem not_mem_successors (h : g.IsAcyclic) (v : Fin n) : v ∉ g.successors v :=
  fun hloop => h v (.single hloop)

theorem eq_of_reaches (h : g.IsAcyclic) (hto : g.Reaches u w) (hback : g.Reaches w u) : u = w := by
  rcases reflTransGen_iff_eq_or_transGen.mp hto with heq | hpath
  · exact heq.symm
  · exact absurd (hpath.trans_left hback) (h u)

theorem wellFounded (h : g.IsAcyclic) : WellFounded fun u w => u ∈ g.predecessors w := by
  have : Std.Irrefl (TransGen fun x y => y ∈ g.successors x) := ⟨h⟩
  refine Subrelation.wf (fun hstep => ?_)
    (Finite.wellFounded_of_trans_of_irrefl (TransGen fun x y => y ∈ g.successors x))
  exact .single (mem_successors_iff_mem_predecessors.mpr hstep)

end IsAcyclic

theorem IsComponentOrder.eq_singleton {cs : List (List (Fin n))} (hcs : g.IsComponentOrder cs)
    (h : g.IsAcyclic) {c : List (Fin n)} (hc : c ∈ cs) : ∃ v, [v] = c := by
  match c with
  | [] => exact absurd hc hcs.nonempty
  | [v] => exact ⟨v, rfl⟩
  | v :: w :: rest =>
    have hv : v ∈ v :: w :: rest := by simp
    have hw : w ∈ v :: w :: rest := by simp
    obtain ⟨hto, hback⟩ := (hcs.mem_iff_reaches hc hv).mp hw
    have heq := h.eq_of_reaches hto hback
    have hnodup := hcs.nodup _ hc
    simp [heq] at hnodup

-- The components are the nodes, each of them once.
theorem IsComponentOrder.exists_eq_map_singleton {cs : List (List (Fin n))}
    (hcs : g.IsComponentOrder cs) (h : g.IsAcyclic) :
    ∃ vs : List (Fin n), vs.map ([·]) = cs ∧ vs.length = n := by
  obtain ⟨vs, hvs⟩ : cs ∈ Set.range (List.map fun v : Fin n => [v]) := by
    rw [Set.range_list_map]
    exact fun c hc => hcs.eq_singleton h hc
  refine ⟨vs, hvs, ?_⟩
  subst hvs
  have hnodup : vs.Nodup := by
    refine (List.pairwise_map.mp hcs.forward).imp fun hdisjoint heq => ?_
    rw [heq] at hdisjoint
    exact hdisjoint.1 List.mem_cons_self List.mem_cons_self
  have hmem : ∀ v, v ∈ vs := by
    intro v
    obtain ⟨c, hc, hv⟩ := hcs.covers v
    obtain ⟨u, hu, rfl⟩ := List.mem_map.mp hc
    rwa [List.mem_singleton.mp hv]
  have hperm : vs.Perm (List.finRange n) :=
    (List.perm_ext_iff_of_nodup hnodup (List.nodup_finRange n)).mpr fun v =>
      iff_of_true (hmem v) (List.mem_finRange v)
  rw [hperm.length_eq, List.length_finRange]

end Graph

namespace FlowFunctions

variable [Meet α] {f : FlowFunctions ν ε α} {top : α}

theorem Solves.unique (h : g.IsAcyclic) {x y : Fin n → α} (hx : f.Solves g top x)
    (hy : f.Solves g top y) : x = y := by
  funext v
  induction v using h.wellFounded.induction with
  | _ v ih =>
    calc x v = f.image g top x v := hx v
      _ = f.image g top y v := image_congr ih
      _ = y v := (hy v).symm

variable [DecidableEq α] {allowance : Nat} {o : Outcome α n} {v : Fin n} {vs : List (Fin n)}

-- A node without a loop is not woken by its own visit.
theorem waiting_visit_singleton (hv : v ∉ g.successors v) {p : Progress α n} :
    (f.visit g top (mark (.replicate n false) [v]) v [] p).waiting = [] := by
  by_cases h : f.image g top p.values.get v = p.values.get v
  · exact waiting_visit_of_eq h
  · rw [waiting_visit_of_ne h, List.eq_nil_iff_forall_not_mem]
    intro u hu
    obtain ⟨hsucc, hmark⟩ := (mem_enqueue.mp hu).resolve_left List.not_mem_nil
    rw [List.mem_singleton.mp (get_mark_replicate.mp hmark)] at hsucc
    exact hv hsucc

theorem solveComponent_singleton (hv : v ∉ g.successors v) (hpos : 1 ≤ allowance) :
    f.solveComponent g top allowance o [v] =
      { values := o.values.set v.val (f.image g top o.values.get v) v.isLt
        components := o.components + 1
        iterations := o.iterations + 1
        settled := o.settled } := by
  obtain ⟨k, rfl⟩ := Nat.exists_eq_add_of_le' hpos
  have hvisit : f.settle g top (mark (.replicate n false) [v]) (k + 1)
      ⟨o.values, [v], o.iterations⟩ =
        f.visit g top (mark (.replicate n false) [v]) v [] ⟨o.values, [v], o.iterations⟩ := by
    rw [settle_of_cons rfl, settle_of_nil (waiting_visit_singleton hv)]
  simp only [solveComponent, hvisit, values_visit, iterations_visit, waiting_visit_singleton hv,
    List.isEmpty_nil, Bool.and_true]

-- Brings the nodes of a list up to date, each of them once and whatever the others are.
def sweep (f : FlowFunctions ν ε α) (g : Graph n ν ε) (top : α) (values : Vector α n)
    (vs : List (Fin n)) : Vector α n :=
  vs.foldl (fun values v => values.set v.val (f.image g top values.get v) v.isLt) values

theorem foldl_solveComponent_singletons (hvs : ∀ v ∈ vs, v ∉ g.successors v)
    (hpos : 1 ≤ allowance) :
    (vs.map ([·])).foldl (f.solveComponent g top allowance) o =
      { values := f.sweep g top o.values vs
        components := o.components + vs.length
        iterations := o.iterations + vs.length
        settled := o.settled } := by
  induction vs generalizing o with
  | nil => rfl
  | cons v vs ih =>
    rw [List.forall_mem_cons] at hvs
    rw [List.map_cons, List.foldl_cons, solveComponent_singleton hvs.1 hpos, ih hvs.2]
    simp only [sweep, List.foldl_cons, List.length_cons, Nat.add_assoc, Nat.add_comm 1]

theorem exists_solveAlong_eq (h : g.IsAcyclic) {cs : List (List (Fin n))}
    (hcs : g.IsComponentOrder cs) (hpos : 1 ≤ allowance) :
    ∃ values : Vector α n,
      f.solveAlong g top allowance cs = ⟨values, n, n, true⟩ ∧ f.Solves g top values.get := by
  obtain ⟨vs, rfl, hlength⟩ := hcs.exists_eq_map_singleton h
  have heq : f.solveAlong g top allowance (vs.map ([·])) =
      ⟨f.sweep g top (f.initial g top).values vs, n, n, true⟩ := by
    rw [solveAlong, foldl_solveComponent_singletons (fun v _ => h.not_mem_successors v) hpos]
    simp only [initial, hlength, Nat.zero_add]
  refine ⟨_, heq, ?_⟩
  have hsolves : f.Solves g top (f.solveAlong g top allowance (vs.map ([·]))).values.get :=
    solves_solveAlong hcs.toIsLayering (by rw [heq])
  rwa [heq] at hsolves

-- A single visit to each node is enough, whatever the functions are, and leads to the only solution.
theorem solve_single_pass (f : FlowFunctions ν ε α) (g : Graph n ν ε) (top : α) (h : g.IsAcyclic) :
    ∃ o : Outcome α n, o.settled = true ∧ o.iterations = n ∧ o.components = n ∧
      (∀ x : Fin n → α, f.Solves g top x ↔ x = o.values.get) ∧
      ∀ allowance, 1 ≤ allowance → f.solve g top allowance = o ∧
        ∀ cs, g.IsComponentOrder cs → f.solveAlong g top allowance cs = o := by
  obtain ⟨values, hsolve, hvalues⟩ : ∃ values : Vector α n,
      f.solveAlong g top 1 g.components = ⟨values, n, n, true⟩ ∧ f.Solves g top values.get :=
    exists_solveAlong_eq h g.components_isComponentOrder (Nat.le_refl 1)
  have hany : ∀ {allowance cs}, 1 ≤ allowance → g.IsComponentOrder cs →
      f.solveAlong g top allowance cs = ⟨values, n, n, true⟩ := by
    intro allowance cs hpos hcs
    obtain ⟨values', heq, hvalues'⟩ : ∃ values' : Vector α n,
        f.solveAlong g top allowance cs = ⟨values', n, n, true⟩ ∧ f.Solves g top values'.get :=
      exists_solveAlong_eq h hcs hpos
    have hget := hvalues'.unique h hvalues
    rw [heq, Vector.ext fun i hi => congrFun hget ⟨i, hi⟩]
  refine ⟨⟨values, n, n, true⟩, rfl, rfl, rfl, fun x => ⟨fun hx => hx.unique h hvalues, ?_⟩, ?_⟩
  · rintro rfl
    exact hvalues
  · intro allowance hpos
    rw [solve_eq_solveAlong]
    exact ⟨hany hpos g.components_isComponentOrder, fun cs hcs => hany hpos hcs⟩

-- A chain of two steps beside a direct arc, with parallel arcs. The higher a value, the lower what an arc
-- makes of it.
theorem solve_single_pass_antitone_chain :
    let f : FlowFunctions (Option Level) Nat Level :=
      ⟨fun node input => node.getD input, fun bound l => ⟨bound - l.rank⟩⟩
    let g : Graph 4 (Option Level) Nat :=
      .ofArcs #v[some ⟨4⟩, none, none, none]
        [⟨1, 2, 5⟩, ⟨0, 2, 7⟩, ⟨0, 1, 8⟩, ⟨0, 1, 6⟩, ⟨2, 3, 3⟩]
    let top : Level := ⟨9⟩
    g.IsAcyclic ∧
      ∃ o : Outcome Level 4, o.settled = true ∧ o.iterations = 4 ∧ o.components = 4 ∧
        (∀ x : Fin 4 → Level, f.Solves g top x ↔ x = o.values.get) ∧
        ∀ allowance, 1 ≤ allowance → f.solve g top allowance = o ∧
          ∀ cs, g.IsComponentOrder cs → f.solveAlong g top allowance cs = o := by
  intro f g top
  have hacyclic : g.IsAcyclic := Graph.isAcyclic_of_lt (by decide)
  exact ⟨hacyclic, solve_single_pass f g top hacyclic⟩

end FlowFunctions

end LabelInference.Dataflow
