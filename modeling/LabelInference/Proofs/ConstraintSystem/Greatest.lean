import LabelInference.Proofs.ConstraintSystem.Solution

namespace LabelInference.ConstraintSystem

universe u v w

section General

variable {γ : Type u} {ν : Type v} {ρ : Type w} [Join γ] [Meet γ] [DecidableEq ν]

-- An assignment below the top value under which every constraint holds.
structure IsSolution (s : ConstraintSystem γ ν ρ) (value : ν → γ) : Prop where
  below_top : ∀ x, Below (value x) s.bounds.top
  satisfies : ∀ c ∈ s.constraints, Below (c.lower.eval value) (c.upper.eval value)

variable {s : ConstraintSystem γ ν ρ} {value : ν → γ}

theorem isSolution_iff : s.IsSolution value ↔ s.IsSolutionIn Below value :=
  ⟨fun h => ⟨h.below_top, h.satisfies⟩, fun h => ⟨h.below_top, h.satisfies⟩⟩

variable [Imply γ] [LawfulHeyting γ]

theorem hasResiduals_below : s.HasResiduals Below := fun _ _ a _ => isResiduated_below a

variable [DecidableEq γ] [ChainBound γ]

theorem IsSolution.below_candidate (h : s.IsSolution value) (x : ν) :
    Below (value x) (s.candidate.get x) :=
  (isSolution_iff.mp h).rel_candidate isCoarsening_below hasResiduals_below x

theorem IsSolution.candidate (h : s.IsSolution value) (hs : s.outcome.settled = true) :
    s.IsSolution s.candidate.get :=
  isSolution_iff.mpr ((isSolution_iff.mp h).candidate isCoarsening_below hasResiduals_below hs)

end General

variable {α : Type u} [Ordered α] {ν : Type v} [DecidableEq ν] {ρ : Type w}

-- Over the free lattice with the order of the lattice, from any top value: the system is solved if it
-- has a solution at all, and then by the greatest one, also at unknowns that no constraint mentions.
theorem solution_greatest (cs : List (Constraint (FreeLattice α) ν ρ))
    (b : Bounds (FreeLattice α)) :
    let s : ConstraintSystem (FreeLattice α) ν ρ := ⟨cs, b, isBelow⟩
    s.outcome.settled = true ∧
      ((∃ sol, s.solution = .ok sol) ↔ ∃ value, s.IsSolution value) ∧
      ∀ sol, s.solution = .ok sol → s.IsSolution sol.get ∧
        ∀ value, s.IsSolution value → ∀ x, Below (value x) (sol.get x) := by
  intro s
  have hs := outcome_settled s
  have hok : ∀ sol, s.solution = .ok sol → sol = s.candidate ∧ s.IsSolution sol.get := by
    intro sol hsol
    obtain ⟨rfl, hc⟩ := solution_eq_ok_iff.mp hsol
    exact ⟨rfl, candidate_below_top hs, fun c hmem => isBelow_iff.mp (hc c hmem)⟩
  refine ⟨hs, ⟨?_, ?_⟩, fun sol hsol => ?_⟩
  · rintro ⟨sol, hsol⟩
    exact ⟨sol.get, (hok sol hsol).2⟩
  · rintro ⟨value, hvalue⟩
    have hcandidate := hvalue.candidate hs
    exact ⟨s.candidate, solution_eq_ok_iff.mpr
      ⟨rfl, fun c hc => isBelow_iff.mpr (hcandidate.satisfies c hc)⟩⟩
  · obtain ⟨rfl, hsolution⟩ := hok sol hsol
    exact ⟨hsolution, fun value hvalue x => hvalue.below_candidate x⟩

end LabelInference.ConstraintSystem
