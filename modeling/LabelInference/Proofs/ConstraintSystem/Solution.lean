import LabelInference.Proofs.ConstraintSystem.Settling
import LabelInference.Proofs.Term.Reduction

namespace LabelInference.ConstraintSystem

universe u v w

variable {γ : Type u} {ν : Type v} {ρ : Type w} [Join γ] [Meet γ] [DecidableEq ν]

-- An assignment below the top value under which every constraint holds, all in the order `R`.
structure IsSolutionIn (R : γ → γ → Prop) (s : ConstraintSystem γ ν ρ) (value : ν → γ) : Prop where
  below_top : ∀ x, R (value x) s.bounds.top
  satisfies : ∀ c ∈ s.constraints, R (c.lower.eval value) (c.upper.eval value)

def HasResiduals [Imply γ] (R : γ → γ → Prop) (s : ConstraintSystem γ ν ρ) : Prop :=
  ∀ r ∈ s.reduced, ∀ a ∈ r.edge.antecedent?, IsResiduated R a

variable {R : γ → γ → Prop} {s : ConstraintSystem γ ν ρ} {value : ν → γ}

theorem violationsUnder_eq_nil_iff {sol : Solution γ ν} :
    s.violationsUnder sol = [] ↔
      ∀ c ∈ s.constraints, s.order (sol.eval c.lower) (sol.eval c.upper) = true := by
  unfold violationsUnder
  rw [List.filterMap_eq_nil_iff]
  refine forall₂_congr fun c _ => ?_
  by_cases h : s.order (sol.eval c.lower) (sol.eval c.upper) = true <;> simp [h]

section Residuated

variable [Imply γ] [LawfulHeyting γ]

theorem satisfies_iff_sides (hR : IsCoarsening R) :
    (∀ c ∈ s.constraints, R (c.lower.eval value) (c.upper.eval value)) ↔
      ∀ r ∈ s.reduced, R (r.lowerSide value) (r.upperSide value) := by
  constructor
  · intro h r hr
    obtain ⟨c, hc, hr⟩ := mem_reduced.mp hr
    exact (AtomicConstraint.rel_eval_iff_of_reduce hR c.reduces value).mp (h c hc) r hr
  · intro h c hc
    refine (AtomicConstraint.rel_eval_iff_of_reduce hR c.reduces value).mpr fun r hr => ?_
    exact h r (mem_reduced.mpr ⟨c, hc, hr⟩)

variable [DecidableEq γ]

-- Where values are above a solution, so is what the equation makes of them.
theorem IsSolutionIn.rel_image (hR : IsCoarsening R) (hres : s.HasResiduals R)
    (h : s.IsSolutionIn R value) {values : Fin s.nodes.length → γ}
    (hvalues : ∀ u, R ((s.graph.nodes.get u).toTerm.eval value) (values u))
    (v : Fin s.nodes.length) :
    R ((s.graph.nodes.get v).toTerm.eval value) (flow.image s.graph s.bounds.top values v) := by
  cases hv : s.graph.nodes.get v with
  | const c =>
    rw [image_of_const hv]
    exact hR.refl c
  | var x =>
    refine (rel_image_iff (R := R) hR.rel_meet_iff hv).mpr ⟨h.below_top x, fun r hr hlower => ?_⟩
    have hnode : r.lower = .var x := by rw [← hv, ← hlower, get_nodes_index]
    have hsides : R (r.lowerSide value) (r.upperSide value) :=
      (satisfies_iff_sides hR).mp h.satisfies r hr
    have hupper := hvalues (s.index r.upper (upper_mem_nodes hr))
    rw [get_nodes_index] at hupper
    refine Edge.rel_propagate (hres r hr) ?_
    rw [AtomicConstraint.lowerSide, hnode] at hsides
    exact hR.trans hsides (Edge.rel_beside_join hR _ hupper)

end Residuated

variable [Imply γ] [DecidableEq γ] [ChainBound γ]

-- Only the candidate is ever returned, after all constraints have been checked.
theorem solution_eq_ok_iff {sol : Solution γ ν} :
    s.solution = .ok sol ↔ sol = s.candidate ∧
      ∀ c ∈ s.constraints, s.order (sol.eval c.lower) (sol.eval c.upper) = true := by
  rw [← violationsUnder_eq_nil_iff]
  unfold solution
  dsimp only
  split
  · next h =>
    constructor
    · intro hsol
      cases hsol
      exact ⟨rfl, h⟩
    · rintro ⟨rfl, _⟩
      rfl
  · next h =>
    constructor
    · intro hsol
      cases hsol
    · rintro ⟨rfl, hnil⟩
      rw [h] at hnil
      cases hnil

theorem solution_eq_error_iff {report : ρ} :
    s.solution = .error report ↔ s.violations.head? = some report := by
  unfold solution violations
  dsimp only
  cases s.violationsUnder s.candidate with
  | nil => simp
  | cons first rest => simp

theorem outcome_eq_image (hs : s.outcome.settled = true) (v : Fin s.nodes.length) :
    s.outcome.values.get v = flow.image s.graph s.bounds.top s.outcome.values.get v :=
  Dataflow.FlowFunctions.solveAlong_balanced s.graph.components_isLayering hs v

theorem eval_candidate (hs : s.outcome.settled = true) {t : AtomicTerm γ ν} (ht : t ∈ s.nodes) :
    t.toTerm.eval s.candidate.get = s.outcome.values.get (s.index t ht) := by
  cases t with
  | const c =>
    rw [outcome_eq_image hs, image_of_const (get_nodes_index ht)]
    rfl
  | var x => exact get_candidate_of_mem ht

variable [LawfulHeyting γ]

theorem candidate_below_top (hs : s.outcome.settled = true) (x : ν) :
    Below (s.candidate.get x) s.bounds.top := by
  by_cases hx : .var x ∈ s.nodes
  · rw [get_candidate_of_mem hx, outcome_eq_image hs]
    exact ((below_image_iff (get_nodes_index hx)).mp (Below.refl _)).1
  · rw [get_candidate_of_not_mem hx]
    exact Below.refl _

-- Bounds on unknowns hold by the equations.
theorem holdsUnder_candidate (hs : s.outcome.settled = true) {r : AtomicConstraint γ ν}
    (hr : r ∈ s.reduced) {x : ν} (hlower : r.lower = .var x) : r.HoldsUnder s.candidate.get := by
  have hl := lower_mem_nodes hr
  have hu := upper_mem_nodes hr
  have hnode : s.graph.nodes.get (s.index r.lower hl) = .var x := (get_nodes_index hl).trans hlower
  unfold AtomicConstraint.HoldsUnder
  rw [eval_candidate hs hl, eval_candidate hs hu, outcome_eq_image hs (s.index r.lower hl)]
  exact ((below_image_iff hnode).mp (Below.refl _)).2 r hr rfl

theorem IsSolutionIn.rel_outcome (hR : IsCoarsening R) (hres : s.HasResiduals R)
    (h : s.IsSolutionIn R value) {t : AtomicTerm γ ν} (ht : t ∈ s.nodes) :
    R (t.toTerm.eval value) (s.outcome.values.get (s.index t ht)) := by
  have hrel : R ((s.graph.nodes.get (s.index t ht)).toTerm.eval value)
      (s.outcome.values.get (s.index t ht)) := by
    refine Dataflow.FlowFunctions.forall_solveAlong
      (P := fun v => R ((s.graph.nodes.get v).toTerm.eval value))
      (fun _ hvalues => h.rel_image hR hres hvalues) (fun v => ?_) (s.index t ht)
    cases s.graph.nodes.get v with
    | const c => exact hR.refl c
    | var x => exact h.below_top x
  rwa [get_nodes_index] at hrel

theorem IsSolutionIn.rel_candidate (hR : IsCoarsening R) (hres : s.HasResiduals R)
    (h : s.IsSolutionIn R value) (x : ν) : R (value x) (s.candidate.get x) := by
  by_cases hx : .var x ∈ s.nodes
  · rw [get_candidate_of_mem hx]
    exact h.rel_outcome hR hres hx
  · rw [get_candidate_of_not_mem hx]
    exact h.below_top x

-- A constraint that holds at or below the candidate holds under it. Its bounds on constants hold, and raising
-- their right sides to the candidate keeps them; the other bounds hold by the equations.
theorem rel_eval_candidate (hR : IsCoarsening R) (hs : s.outcome.settled = true)
    {c : Constraint γ ν ρ} (hc : c ∈ s.constraints) (hvalue : ∀ x, R (value x) (s.candidate.get x))
    (h : R (c.lower.eval value) (c.upper.eval value)) :
    R (s.candidate.eval c.lower) (s.candidate.eval c.upper) := by
  refine (AtomicConstraint.rel_eval_iff_of_reduce hR c.reduces s.candidate.get).mpr fun r hr => ?_
  cases hlower : r.lower with
  | const d =>
    have hsides := (AtomicConstraint.rel_eval_iff_of_reduce hR c.reduces value).mp h r hr
    have hupper : R (r.upper.toTerm.eval value) (r.upper.toTerm.eval s.candidate.get) := by
      cases r.upper with
      | const e => exact hR.refl e
      | var y => exact hvalue y
    rw [AtomicConstraint.lowerSide, hlower] at hsides ⊢
    exact hR.trans hsides (Edge.rel_beside_join hR _ hupper)
  | var x =>
    have hholds := holdsUnder_candidate hs (mem_reduced.mpr ⟨c, hc, hr⟩) hlower
    exact hR.of_below (AtomicConstraint.holdsUnder_iff_sides.mp hholds)

theorem IsSolutionIn.candidate (hR : IsCoarsening R) (hres : s.HasResiduals R)
    (h : s.IsSolutionIn R value) (hs : s.outcome.settled = true) :
    s.IsSolutionIn R s.candidate.get where
  below_top x := hR.of_below (candidate_below_top hs x)
  satisfies c hc := rel_eval_candidate hR hs hc (h.rel_candidate hR hres) (h.satisfies c hc)

end LabelInference.ConstraintSystem
