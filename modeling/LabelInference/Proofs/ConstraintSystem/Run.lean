import LabelInference.Proofs.ConstraintSystem.Settling
import LabelInference.Proofs.Dataflow.Run
import LabelInference.Proofs.Term.Constants

namespace LabelInference.ConstraintSystem

universe u v w

open Dataflow

section Constants

variable {γ : Type u} {ν : Type v} {ρ : Type w} [Join γ] [Meet γ] [DecidableEq ν]

def constants (s : ConstraintSystem γ ν ρ) : List γ :=
  s.constraints.flatMap fun c => c.lower.constants ++ c.upper.constants

theorem mem_constants {s : ConstraintSystem γ ν ρ} {e : γ} :
    e ∈ s.constants ↔ ∃ c ∈ s.constraints, e ∈ c.lower.constants ++ c.upper.constants :=
  List.mem_flatMap

-- What meets and joins keep, and all constants of the constraints have, the constants of the reduced
-- constraints have as well.
theorem forall_constants_reduced {s : ConstraintSystem γ ν ρ} {P : γ → Prop}
    (hjoin : ∀ {c d}, P c → P d → P (join c d)) (hmeet : ∀ {c d}, P c → P d → P (meet c d))
    (h : ∀ e ∈ s.constants, P e) : ∀ r ∈ s.reduced, ∀ e ∈ r.constants, P e := by
  intro r hr
  obtain ⟨c, hc, hr⟩ := mem_reduced.mp hr
  refine AtomicConstraint.forall_constants_of_reduce hjoin hmeet (fun e he => ?_) (fun e he => ?_)
    c.reduces r hr
  · exact h e (mem_constants.mpr ⟨c, hc, List.mem_append_left _ he⟩)
  · exact h e (mem_constants.mpr ⟨c, hc, List.mem_append_right _ he⟩)

variable [DecidableEq γ]

theorem exists_reduced_of_mem_ingredients {s : ConstraintSystem γ ν ρ} {e : γ}
    (h : e ∈ ingredients s.bounds.top s.graph) :
    e = s.bounds.top ∨ ∃ r ∈ s.reduced, e ∈ r.constants := by
  rcases List.mem_cons.mp h with rfl | h
  · exact .inl rfl
  right
  rcases List.mem_append.mp h with h | h
  · obtain ⟨t, ht, he⟩ := List.mem_flatMap.mp h
    obtain ⟨r, hr, rfl | rfl⟩ := mem_nodes.mp ht
    · exact ⟨r, hr, by simp [AtomicConstraint.constants, he]⟩
    · exact ⟨r, hr, by simp [AtomicConstraint.constants, he]⟩
  · obtain ⟨arc, harc, he⟩ := List.mem_flatMap.mp h
    obtain ⟨r, hr, rfl⟩ := mem_arcs_iff.mp harc
    exact ⟨r, hr, by simp [AtomicConstraint.constants, he]⟩

end Constants

variable {α : Type u} [Ordered α] {ν : Type v} [DecidableEq ν] {ρ : Type w}

theorem isOver_ingredients (s : ConstraintSystem (FreeLattice α) ν ρ) :
    ∀ e ∈ ingredients s.bounds.top s.graph,
      e.IsOver (FreeLattice.atomsOf (s.bounds.top :: s.constants)) := by
  intro e he
  rcases exists_reduced_of_mem_ingredients he with rfl | ⟨r, hr, he⟩
  · exact FreeLattice.isOver_atomsOf List.mem_cons_self
  · refine forall_constants_reduced FreeLattice.IsOver.join FreeLattice.IsOver.meet (fun c hc => ?_)
      r hr e he
    exact FreeLattice.isOver_atomsOf (List.mem_cons_of_mem _ hc)

theorem mem_atoms_of_isOver {s : ConstraintSystem (FreeLattice α) ν ρ} {a : FreeLattice α}
    (h : a.IsOver (FreeLattice.atomsOf (s.bounds.top :: s.constants))) {x : α} (hx : x ∈ a.atoms) :
    x ∈ s.bounds.top.atoms ∨
      ∃ c ∈ s.constraints, ∃ e ∈ c.lower.constants ++ c.upper.constants, x ∈ e.atoms := by
  obtain ⟨m, hm, hxm⟩ := FreeLattice.mem_atoms.mp hx
  obtain ⟨e, he, hxe⟩ := FreeLattice.mem_atomsOf.mp (h m hm x hxm)
  rcases List.mem_cons.mp he with rfl | he
  · exact .inl hxe
  · obtain ⟨c, hc, he⟩ := mem_constants.mp he
    exact .inr ⟨c, hc, e, he, hxe⟩

-- Whatever the constraints and the bounds, the run has no infinite continuation, and it ends with the
-- values that the candidate is read from. On the way a value changes only to a strictly smaller one,
-- and no value mentions an atom that the problem does not, although the lattice over infinitely many
-- atoms has infinite descents. All this holds of the components of the graph as the solver orders them,
-- and of every other order in which no arc leads back.
theorem run_ends_below_atoms (s : ConstraintSystem (FreeLattice α) ν ρ) :
    s.graph.IsLayering s.graph.components ∧
      (∀ cs, s.graph.IsLayering cs →
        Acc (fun next stage => flow.Step s.graph s.bounds.top stage next)
            (flow.start s.graph s.bounds.top cs) ∧
          (∃ last, flow.Reached s.graph s.bounds.top cs last ∧
            (∀ next, ¬flow.Step s.graph s.bounds.top last next) ∧
            last.progress.values = s.outcome.values) ∧
          ∀ stage, flow.Reached s.graph s.bounds.top cs stage →
            (∀ next, flow.Step s.graph s.bounds.top stage next →
              ∀ v, next.value v ≠ stage.value v → StrictlyBelow (next.value v) (stage.value v)) ∧
            ∀ v, ∀ x ∈ (stage.value v).atoms, x ∈ s.bounds.top.atoms ∨
              ∃ c ∈ s.constraints, ∃ e ∈ c.lower.constants ++ c.upper.constants, x ∈ e.atoms) ∧
      (Infinite α → ¬WellFounded (StrictlyBelow : FreeLattice α → FreeLattice α → Prop)) := by
  have hclosed := closed_isOver s.graph s.bounds.top (isOver_ingredients s)
  have hrank := isRank_models (s.bounds.top :: s.constants)
  have hcomponents := s.graph.components_isLayering
  refine ⟨hcomponents, fun cs hcs => ⟨?_, ?_, fun stage hstage => ?_⟩,
    fun _ => FreeLattice.not_wellFounded_strictlyBelow⟩
  · exact (FlowFunctions.Sound.start flow_isMonotone hclosed hcs).acc flow_isMonotone hclosed hrank
  · have hsettled := FlowFunctions.solveAlong_settled flow_isMonotone hclosed hrank hcs
    obtain ⟨inside, hreached⟩ := FlowFunctions.reached_solveAlong hsettled
    refine ⟨_, hreached, fun _ => FlowFunctions.not_step_of_last, ?_⟩
    exact FlowFunctions.values_eq_of_settled flow_isMonotone hcs hcomponents hsettled
      (outcome_settled s)
  · have hsound := FlowFunctions.Sound.of_reached flow_isMonotone hclosed hcs hstage
    refine ⟨fun next hstep v => hstep.strictlyBelow hsound.descending, fun v x hx => ?_⟩
    exact mem_atoms_of_isOver (hsound.closed v) hx

end LabelInference.ConstraintSystem
