import LabelInference.Proofs.ConstraintSystem.Solution
import LabelInference.Proofs.FreeLattice.Distributivity

namespace LabelInference.ConstraintSystem

universe u v w

-- What is left of a value at the end of a path.
def pathValue {γ : Type u} [Join γ] [Imply γ] {n : Nat} (c : γ)
    (path : List (Dataflow.Arc n (Edge γ))) : γ :=
  path.foldl (fun value arc => arc.label.propagate value) c

theorem pathValue_append_singleton {γ : Type u} [Join γ] [Imply γ] {n : Nat} {c : γ}
    (path : List (Dataflow.Arc n (Edge γ))) (arc : Dataflow.Arc n (Edge γ)) :
    pathValue c (path ++ [arc]) = arc.label.propagate (pathValue c path) := by
  rw [pathValue, List.foldl_append]
  rfl

section Path

variable {γ : Type u} {ν : Type v} {ρ : Type w} [Join γ] [Meet γ] [DecidableEq γ] [DecidableEq ν]
  {s : ConstraintSystem γ ν ρ} {r : AtomicConstraint γ ν} {x y : ν} {a c : γ}

-- The arcs lead from the constant, through unknowns only, to the unknown.
inductive IsPath (s : ConstraintSystem γ ν ρ) (c : γ) :
    List (Dataflow.Arc s.nodes.length (Edge γ)) → ν → Prop where
  | first {arc : Dataflow.Arc s.nodes.length (Edge γ)} {x : ν} (harc : arc ∈ s.graph.arcs)
      (hsource : s.graph.nodes.get arc.source = .const c)
      (htarget : s.graph.nodes.get arc.target = .var x) : IsPath s c [arc] x
  | extend {path : List (Dataflow.Arc s.nodes.length (Edge γ))}
      {arc : Dataflow.Arc s.nodes.length (Edge γ)} {x y : ν} (hpath : IsPath s c path y)
      (harc : arc ∈ s.graph.arcs) (hsource : s.graph.nodes.get arc.source = .var y)
      (htarget : s.graph.nodes.get arc.target = .var x) : IsPath s c (path ++ [arc]) x

-- Some path brings the value to the unknown.
def IsPathValue [Imply γ] (s : ConstraintSystem γ ν ρ) (x : ν) (a : γ) : Prop :=
  ∃ c path, s.IsPath c path x ∧ pathValue c path = a

variable [Imply γ]

theorem isPathValue_of_const (hr : r ∈ s.reduced) (hlower : r.lower = .var x)
    (hupper : r.upper = .const c) : s.IsPathValue x (r.edge.propagate c) := by
  obtain ⟨arc, harc, rfl⟩ := exists_arc hr
  exact ⟨c, [arc], .first harc hupper hlower, rfl⟩

theorem IsPathValue.extend (h : s.IsPathValue y a) (hr : r ∈ s.reduced) (hlower : r.lower = .var x)
    (hupper : r.upper = .var y) : s.IsPathValue x (r.edge.propagate a) := by
  obtain ⟨c, path, hpath, rfl⟩ := h
  obtain ⟨arc, harc, rfl⟩ := exists_arc hr
  exact ⟨c, path ++ [arc], .extend hpath harc hupper hlower, pathValue_append_singleton path arc⟩

-- What the bounds on unknowns hand on holds of all that paths bring.
theorem IsPath.pathValue_induction {path : List (Dataflow.Arc s.nodes.length (Edge γ))}
    {P : ν → γ → Prop} (h : s.IsPath c path x)
    (hconst : ∀ r ∈ s.reduced, ∀ x c, r.lower = .var x → r.upper = .const c →
      P x (r.edge.propagate c))
    (hvar : ∀ r ∈ s.reduced, ∀ x y a, r.lower = .var x → r.upper = .var y → P y a →
      P x (r.edge.propagate a)) : P x (pathValue c path) := by
  induction h with
  | first harc hsource htarget => exact hconst _ (bound_mem_reduced harc) _ _ htarget hsource
  | extend hpath harc hsource htarget ih =>
    rw [pathValue_append_singleton]
    exact hvar _ (bound_mem_reduced harc) _ _ _ htarget hsource ih

theorem candidate_below_pathValue [ChainBound γ] [LawfulHeyting γ] (hs : s.outcome.settled = true)
    {path : List (Dataflow.Arc s.nodes.length (Edge γ))} (h : s.IsPath c path x) :
    Below (s.candidate.get x) (pathValue c path) := by
  have hbound : ∀ r ∈ s.reduced, ∀ x, r.lower = .var x →
      Below (s.candidate.get x) (r.edge.propagate (r.upper.toTerm.eval s.candidate.get)) := by
    intro r hr x hlower
    have hholds := holdsUnder_candidate hs hr hlower
    unfold AtomicConstraint.HoldsUnder at hholds
    rwa [hlower] at hholds
  refine h.pathValue_induction (P := fun x a => Below (s.candidate.get x) a)
    (fun r hr x c hlower hupper => ?_) (fun r hr x y a hlower hupper ih => ?_)
  · have hholds := hbound r hr x hlower
    rwa [hupper] at hholds
  · have hholds := hbound r hr x hlower
    rw [hupper] at hholds
    exact hholds.trans (r.edge.propagate_mono ih)

end Path

variable {α : Type u} [Ordered α] {ν : Type v} [DecidableEq ν] {ρ : Type w}

-- The value of a constant is its own, that of an unknown leaves room for all below its paths.
def RespectsPaths (s : ConstraintSystem (FreeLattice α) ν ρ) :
    AtomicTerm (FreeLattice α) ν → FreeLattice α → Prop
  | .const c, a => a = c
  | .var x, a => IsAboveMeet (s.IsPathValue x) a

variable {s : ConstraintSystem (FreeLattice α) ν ρ}

theorem respectsPaths_top (t : AtomicTerm (FreeLattice α) ν) :
    s.RespectsPaths t (t.transfer .top) := by
  cases t with
  | const c => rfl
  | var x => exact fun b _ => FreeLattice.below_top b

-- The bound of an arc into an unknown is above all that is below the paths to the unknown: from a
-- constant it is what a path brings, and from an unknown every path to it goes on along the arc.
theorem below_propagate_of_respectsPaths {r : AtomicConstraint (FreeLattice α) ν}
    (hr : r ∈ s.reduced) {x : ν} (hlower : r.lower = .var x) {a b : FreeLattice α}
    (ha : s.RespectsPaths r.upper a) (hb : ∀ p, s.IsPathValue x p → Below b p) :
    Below b (r.edge.propagate a) := by
  cases hupper : r.upper with
  | const c =>
    rw [hupper] at ha
    obtain rfl : a = c := ha
    exact hb _ (isPathValue_of_const hr hlower hupper)
  | var y =>
    rw [hupper] at ha
    have habove : IsAboveMeet (s.IsPathValue y) a := ha
    exact habove.below_propagate fun p hp => hb _ (hp.extend hr hlower hupper)

theorem respectsPaths_image {values : Fin s.nodes.length → FreeLattice α}
    (h : ∀ u, s.RespectsPaths (s.graph.nodes.get u) (values u)) (v : Fin s.nodes.length) :
    s.RespectsPaths (s.graph.nodes.get v) (flow.image s.graph .top values v) := by
  cases hv : s.graph.nodes.get v with
  | const c => exact image_of_const hv
  | var x =>
    intro b hb
    refine (below_image_iff hv).mpr ⟨FreeLattice.below_top b, fun r hr hindex => ?_⟩
    have hlower : r.lower = .var x := by rw [← hv, ← hindex, get_nodes_index]
    have hupper := h (s.index r.upper (upper_mem_nodes hr))
    rw [get_nodes_index] at hupper
    exact below_propagate_of_respectsPaths hr hlower hupper hb

theorem isAboveMeet_candidate (htop : s.bounds.top = .top) (x : ν) :
    IsAboveMeet (s.IsPathValue x) (s.candidate.get x) := by
  by_cases hx : .var x ∈ s.nodes
  · have hrespects : s.RespectsPaths (s.graph.nodes.get (s.index (.var x) hx))
        (s.outcome.values.get (s.index (.var x) hx)) := by
      unfold outcome
      rw [htop]
      exact Dataflow.FlowFunctions.forall_solveAlong
        (P := fun v => s.RespectsPaths (s.graph.nodes.get v))
        (fun _ h v => respectsPaths_image h v) (fun v => respectsPaths_top _) _
    rw [get_nodes_index] at hrespects
    rw [get_candidate_of_mem hx]
    exact hrespects
  · rw [get_candidate_of_not_mem hx, htop]
    exact fun b _ => FreeLattice.below_top b

-- With the real bounds the candidate of every unknown is the greatest lower bound of what the paths to it
-- bring, and all of the lattice if there is no path to it.
theorem candidate_meet_over_paths (cs : List (Constraint (FreeLattice α) ν ρ))
    (order : FreeLattice α → FreeLattice α → Bool) (x : ν) :
    let s : ConstraintSystem (FreeLattice α) ν ρ := ⟨cs, FreeLattice.bounds, order⟩
    (∀ c path, s.IsPath c path x → Below (s.candidate.get x) (pathValue c path)) ∧
      (∀ a, (∀ c path, s.IsPath c path x → Below a (pathValue c path)) →
        Below a (s.candidate.get x)) ∧
      ((∀ c path, ¬s.IsPath c path x) → s.candidate.get x = .top) := by
  intro s
  have hgreatest : ∀ a, (∀ c path, s.IsPath c path x → Below a (pathValue c path)) →
      Below a (s.candidate.get x) := by
    intro a ha
    refine isAboveMeet_candidate rfl x a ?_
    rintro _ ⟨c, path, hpath, rfl⟩
    exact ha c path hpath
  refine ⟨fun c path => candidate_below_pathValue (outcome_settled s), hgreatest, fun hnone => ?_⟩
  refine Below.antisymm (FreeLattice.below_top _) (hgreatest .top fun c path hpath => ?_)
  exact absurd hpath (hnone c path)

-- A path that leads once round a cycle, and an unknown that no path leads to.
theorem candidate_meet_over_paths_cycle :
    let s : ConstraintSystem (FreeLattice Int) (Fin 3) Unit :=
      ⟨[⟨.meet (.const (.atom 1)) (.var 0), .const (.atom 0), fun _ _ => (),
          [⟨.var 0, .imply (.atom 1), .const (.atom 0)⟩], rfl⟩,
        ⟨.var 1, .join (.var 0) (.const (.atom 2)), fun _ _ => (),
          [⟨.var 1, .join (.atom 2), .var 0⟩], rfl⟩,
        ⟨.var 0, .var 1, fun _ _ => (), [⟨.var 0, .identity, .var 1⟩], rfl⟩],
        FreeLattice.bounds, isBelow⟩
    s.IsPath (.atom 0) s.graph.arcs 0 ∧
      Below (s.candidate.get 0) (pathValue (.atom 0) s.graph.arcs) ∧
      (∀ c path, s.IsPath c path 0 → Below (.atom 0) (pathValue c path)) ∧
      Below (.atom 0) (s.candidate.get 0) ∧
      (∀ c path, ¬s.IsPath c path 2) ∧ s.candidate.get 2 = .top := by
  intro s
  have hreduced : ∀ r ∈ s.reduced, r = ⟨.var 0, .imply (.atom 1), .const (.atom 0)⟩ ∨
      r = ⟨.var 1, .join (.atom 2), .var 0⟩ ∨ r = ⟨.var 0, .identity, .var 1⟩ := by
    intro r hr
    simpa [reduced, s] using hr
  have harc (i : Fin 3) : s.graph.arcs[i] ∈ s.graph.arcs := List.getElem_mem _
  have hpath : s.IsPath (.atom 0) s.graph.arcs 0 :=
    .extend (y := 1) (.extend (y := 0) (.first (harc 0) rfl rfl) (harc 1) rfl rfl) (harc 2) rfl rfl
  have hbelow : ∀ c path, s.IsPath c path 0 → Below (.atom 0) (pathValue c path) := by
    intro c path h
    refine h.pathValue_induction (P := fun _ a => Below (.atom 0) a)
      (fun r hr x c _ hupper => ?_) (fun r hr x y a _ hupper ih => ?_)
    · rcases hreduced r hr with rfl | rfl | rfl <;> cases hupper
      exact below_imply_iff.mpr (meet_below_right _ _)
    · rcases hreduced r hr with rfl | rfl | rfl <;> cases hupper
      · exact ih.trans (below_join_right _ _)
      · exact ih
  have hnone : ∀ c path, ¬s.IsPath c path 2 := by
    intro c path h
    refine h.pathValue_induction (P := fun x _ => x ≠ 2) (fun r hr x c hlower _ => ?_)
      (fun r hr x y a hlower _ _ => ?_) rfl
    · rcases hreduced r hr with rfl | rfl | rfl <;> cases hlower <;> decide
    · rcases hreduced r hr with rfl | rfl | rfl <;> cases hlower <;> decide
  obtain ⟨habove, hgreatest, _⟩ := candidate_meet_over_paths s.constraints s.order 0
  obtain ⟨_, _, htop⟩ := candidate_meet_over_paths s.constraints s.order 2
  exact ⟨hpath, habove _ _ hpath, hbelow, hgreatest _ hbelow, hnone, htop hnone⟩

end LabelInference.ConstraintSystem
