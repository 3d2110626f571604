import LabelInference.Proofs.ConstraintSystem.Solution
import LabelInference.Proofs.FreeLattice.TrustOrder

namespace LabelInference.ConstraintSystem

universe u v w

section Orders

variable {γ : Type u} {ν : Type v} {ρ : Type w}
variable [Join γ] [Meet γ] [Imply γ] [ChainBound γ] [DecidableEq γ] [DecidableEq ν]

def violated (s : ConstraintSystem γ ν ρ) : List (Constraint γ ν ρ) :=
  s.constraints.filter fun c => !s.order (s.candidate.eval c.lower) (s.candidate.eval c.upper)

section Violated

variable {s : ConstraintSystem γ ν ρ}

theorem mem_violated {c : Constraint γ ν ρ} :
    c ∈ s.violated ↔ c ∈ s.constraints ∧
      ¬s.order (s.candidate.eval c.lower) (s.candidate.eval c.upper) = true := by
  simp [violated]

theorem exists_solution_iff : (∃ sol, s.solution = .ok sol) ↔ ∀ c, c ∉ s.violated := by
  simp only [solution_eq_ok_iff, exists_eq_left, mem_violated, not_and, not_not]

end Violated

theorem violations_eq_map_violated (s : ConstraintSystem γ ν ρ) :
    s.violations =
      s.violated.map fun c => c.report (s.candidate.eval c.lower) (s.candidate.eval c.upper) := by
  rw [violated, ← List.filterMap_eq_map, List.filterMap_filter]
  refine List.filterMap_congr fun c _ => ?_
  dsimp only
  cases s.order (s.candidate.eval c.lower) (s.candidate.eval c.upper) <;> rfl

variable (cs : List (Constraint γ ν ρ)) (b : Bounds γ) {strict lenient : γ → γ → Bool}

theorem candidate_eq_candidate (o o' : γ → γ → Bool) :
    (mk cs b o).candidate = (mk cs b o').candidate := rfl

variable (h : ∀ x y, strict x y = true → lenient x y = true)
include h

theorem violated_sublist : (mk cs b lenient).violated.Sublist (mk cs b strict).violated := by
  refine List.monotone_filter_right cs fun c hc => ?_
  let sol := (mk cs b strict).candidate
  change (!lenient (sol.eval c.lower) (sol.eval c.upper)) = true at hc
  change (!strict (sol.eval c.lower) (sol.eval c.upper)) = true
  cases hstrict : strict (sol.eval c.lower) (sol.eval c.upper) with
  | false => rfl
  | true =>
    rw [h _ _ hstrict] at hc
    cases hc

theorem violations_sublist : (mk cs b lenient).violations.Sublist (mk cs b strict).violations := by
  rw [violations_eq_map_violated, violations_eq_map_violated, candidate_eq_candidate cs b lenient strict]
  exact (violated_sublist cs b h).map _

theorem solution_ok_of_strict {sol : Solution γ ν} (hsol : (mk cs b strict).solution = .ok sol) :
    (mk cs b lenient).solution = .ok sol := by
  obtain ⟨rfl, hholds⟩ := solution_eq_ok_iff.mp hsol
  exact solution_eq_ok_iff.mpr
    ⟨candidate_eq_candidate cs b strict lenient, fun c hc => h _ _ (hholds c hc)⟩

end Orders

variable {α : Type u} [Ordered α] {ν : Type v} [DecidableEq ν] {ρ : Type w}

-- If the delegations `as` hold modulo `bs`, then a system checked modulo `bs` has the candidate that it
-- has modulo `as`, violates no further constraint and reports nothing new, and keeps its solution. In
-- particular delegations may be reordered, repeated or added.
theorem delegations_only_legalise (cs : List (Constraint (FreeLattice α) ν ρ))
    (b : Bounds (FreeLattice α)) :
    (∀ as bs : List (Delegation α), (∀ d ∈ as, d.lower.entails bs d.upper = true) →
      let strict : ConstraintSystem (FreeLattice α) ν ρ := ⟨cs, b, FreeLattice.entails as⟩
      let lenient : ConstraintSystem (FreeLattice α) ν ρ := ⟨cs, b, FreeLattice.entails bs⟩
      lenient.candidate = strict.candidate ∧
        lenient.violated.Sublist strict.violated ∧
        lenient.violations.Sublist strict.violations ∧
        ∀ sol, strict.solution = .ok sol → lenient.solution = .ok sol) ∧
      ∀ as bs : List (Delegation α), as ⊆ bs → ∀ sol,
        (mk cs b (FreeLattice.entails as)).solution = .ok sol →
          (mk cs b (FreeLattice.entails bs)).solution = .ok sol := by
  constructor
  · intro as bs has
    have hle : ∀ x y : FreeLattice α, x.entails as y = true → x.entails bs y = true :=
      fun _ _ => FreeLattice.entails_cut has
    exact ⟨candidate_eq_candidate cs b _ _, violated_sublist cs b hle, violations_sublist cs b hle,
      fun _ => solution_ok_of_strict cs b hle⟩
  · intro as bs hsub sol
    have has : ∀ d ∈ as, d.lower.entails bs d.upper = true := fun d hd =>
      FreeLattice.entails_of_mem (hsub hd)
    exact solution_ok_of_strict cs b fun _ _ => FreeLattice.entails_cut has

-- The delegation from `0` to `2` follows from those over `1`, which also legalise the flow from `1`.
theorem delegations_only_legalise_chain :
    let as : List (Delegation Int) := [⟨.atom 0, .atom 2⟩]
    let bs : List (Delegation Int) := [⟨.atom 1, .atom 2⟩, ⟨.atom 0, .atom 1⟩]
    let flow (k : Int) : Constraint (FreeLattice Int) Unit Int :=
      ⟨.const (.atom k), .const (.atom 2), fun _ _ => k,
        [⟨.const (.atom k), .identity, .const (.atom 2)⟩], rfl⟩
    let system (ds : List (Delegation Int)) : ConstraintSystem (FreeLattice Int) Unit Int :=
      ⟨[flow 0, flow 1, flow 4], FreeLattice.bounds, FreeLattice.entails ds⟩
    (∀ d ∈ as, d.lower.entails bs d.upper = true) ∧
      (system as).violations = [1, 4] ∧ (system bs).violations = [4] ∧
      (system bs).violations.Sublist (system as).violations := by
  intro as bs flow system
  have has : ∀ d ∈ as, d.lower.entails bs d.upper = true := by decide +kernel
  have hstrict : (system as).violations = [1, 4] := by decide +kernel
  have hlenient : (system bs).violations = [4] := by decide +kernel
  obtain ⟨_, _, hsub, _⟩ := (delegations_only_legalise (system as).constraints (system as).bounds).1 as bs has
  exact ⟨has, hstrict, hlenient, hsub⟩

end LabelInference.ConstraintSystem
