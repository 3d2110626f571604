import LabelInference.Proofs.ConstraintSystem.Solution
import LabelInference.Proofs.FreeLattice.Residuals
import Mathlib.Computability.Primrec.List
import Mathlib.Data.Fin.Tuple.Take
import Mathlib.Data.List.Permutation

-- The imported Mathlib modules have the equations of `List.lookup`, `Fin.cast` and `Prod.snd` by which `cbv` evaluates a run.

namespace LabelInference.ConstraintSystem

universe u v w

open FreeLattice

variable {α : Type u} [Ordered α] {ν : Type v} [DecidableEq ν] {ρ : Type w}

def HoldsModulo (ds : List (Delegation α)) (cs : List (Constraint (FreeLattice α) ν ρ))
    (value : ν → FreeLattice α) : Prop :=
  ∀ c ∈ cs, (c.lower.eval value).entails ds (c.upper.eval value) = true

-- The system that starts from all of the lattice and is checked modulo the delegations.
def modulo (ds : List (Delegation α)) (cs : List (Constraint (FreeLattice α) ν ρ)) :
    ConstraintSystem (FreeLattice α) ν ρ :=
  ⟨cs, FreeLattice.bounds, FreeLattice.entails ds⟩

-- If there is a solution modulo the delegations, the greatest one is returned.
def FindsGreatest (ds : List (Delegation α)) (cs : List (Constraint (FreeLattice α) ν ρ)) : Prop :=
  (∃ value, HoldsModulo ds cs value) →
    ∃ sol, (modulo ds cs).solution = .ok sol ∧ HoldsModulo ds cs sol.get ∧
      ∀ value, HoldsModulo ds cs value → ∀ x, (value x).entails ds (sol.get x) = true

variable {ds : List (Delegation α)} {cs : List (Constraint (FreeLattice α) ν ρ)}

theorem isSolutionIn_modulo_iff {value : ν → FreeLattice α} :
    (modulo ds cs).IsSolutionIn (BelowModulo ds) value ↔ HoldsModulo ds cs value :=
  ⟨fun h => h.satisfies, fun h =>
    ⟨fun x => (isCoarsening_belowModulo ds).of_below (FreeLattice.below_top (value x)), h⟩⟩

theorem hasResiduals_modulo
    (h : ∀ c ∈ cs, ∀ r ∈ c.reduced, ∀ a ∈ r.edge.antecedent?, a.IsFreeUnder ds) :
    (modulo ds cs).HasResiduals (BelowModulo ds) := by
  intro r hr a ha
  obtain ⟨c, hc, hr⟩ := mem_reduced.mp hr
  exact (h c hc r hr a ha).isResiduated

-- The bound `y` on the meet of an unknown with a constant.
def meetBound (a y : FreeLattice α) (x : ν) (report : FreeLattice α → FreeLattice α → ρ) :
    Constraint (FreeLattice α) ν ρ where
  lower := .meet (.const a) (.var x)
  upper := .const y
  report := report
  reduced := [⟨.var x, .imply a, .const y⟩]
  reduces := rfl

theorem findsGreatest_of_isFreeUnder
    (h : ∀ c ∈ cs, ∀ r ∈ c.reduced, ∀ a ∈ r.edge.antecedent?, a.IsFreeUnder ds) :
    FindsGreatest ds cs := by
  rintro ⟨value, hvalue⟩
  have hR := isCoarsening_belowModulo ds
  have hres := hasResiduals_modulo h
  have hcandidate : (modulo ds cs).IsSolutionIn (BelowModulo ds) (modulo ds cs).candidate.get :=
    (isSolutionIn_modulo_iff.mpr hvalue).candidate hR hres (outcome_settled (modulo ds cs))
  refine ⟨(modulo ds cs).candidate, solution_eq_ok_iff.mpr ⟨rfl, hcandidate.satisfies⟩,
    hcandidate.satisfies, fun value hvalue x => ?_⟩
  exact (isSolutionIn_modulo_iff.mpr hvalue).rel_candidate hR hres x

theorem candidate_meetBound_below {a y : FreeLattice α} {x : ν}
    {report : FreeLattice α → FreeLattice α → ρ} :
    Below ((modulo ds [meetBound a y x report]).candidate.get x) (imply a y) :=
  holdsUnder_candidate (r := ⟨.var x, .imply a, .const y⟩) (outcome_settled _)
    (mem_reduced.mpr ⟨_, List.mem_singleton.mpr rfl, List.mem_singleton.mpr rfl⟩) rfl

-- A value that obeys the bound only thanks to the delegations is not below what is found.
theorem not_findsGreatest_meetBound {a y value : FreeLattice α} {x : ν}
    {report : FreeLattice α → FreeLattice α → ρ} (hmeet : BelowModulo ds (meet a value) y)
    (himply : ¬BelowModulo ds value (imply a y)) :
    ¬FindsGreatest ds [meetBound a y x report] := by
  intro hfinds
  have hvalue : HoldsModulo ds [meetBound a y x report] fun _ => value := by
    intro c hc
    obtain rfl := List.mem_singleton.mp hc
    exact hmeet
  obtain ⟨sol, hsol, _, hgreatest⟩ := hfinds ⟨_, hvalue⟩
  obtain rfl := (solution_eq_ok_iff.mp hsol).1
  have hR := isCoarsening_belowModulo ds
  exact himply (hR.trans (hgreatest _ hvalue x) (hR.of_below candidate_meetBound_below))

-- The greatest solution is found if all antecedents are free, and no antecedent can be excepted.
theorem solution_greatest_modulo (ds : List (Delegation α)) :
    (∀ cs : List (Constraint (FreeLattice α) ν ρ),
        (∀ c ∈ cs, ∀ r ∈ c.reduced, ∀ a ∈ r.edge.antecedent?, a.IsFreeUnder ds) →
          FindsGreatest ds cs) ∧
      ∀ a : FreeLattice α, ¬a.IsFreeUnder ds →
        ∀ (x : ν) (report : FreeLattice α → FreeLattice α → ρ),
          ∃ y, ¬FindsGreatest ds [meetBound a y x report] := by
  refine ⟨fun cs => findsGreatest_of_isFreeUnder, fun a ha x report => ?_⟩
  rw [← isResiduated_iff_isFreeUnder] at ha
  unfold IsResiduated at ha
  push Not at ha
  obtain ⟨value, y, hmeet, himply⟩ := ha
  exact ⟨y, not_findsGreatest_meetBound hmeet himply⟩

-- The delegation forces nothing on `2`, so a bound next to `2` does no harm. With `0` it forces `1`.
theorem solution_greatest_modulo_free_bound :
    let ds : List (Delegation Int) := [⟨.atom 0, .atom 1⟩]
    let cs : List (Constraint (FreeLattice Int) Unit Unit) :=
      [meetBound (.atom 2) (.atom 1) () fun _ _ => (),
        ⟨.const (.atom 0), .var (), fun _ _ => (), [⟨.const (.atom 0), .identity, .var ()⟩], rfl⟩]
    (∀ c ∈ cs, ∀ r ∈ c.reduced, ∀ a ∈ r.edge.antecedent?, a.IsFreeUnder ds) ∧
      FindsGreatest ds cs ∧
      ¬(FreeLattice.atom 0).IsFreeUnder ds ∧
      ∃ y, ¬FindsGreatest ds [meetBound (.atom 0) y () fun _ _ => ()] := by
  intro ds cs
  have htwo : (FreeLattice.atom 2).IsFreeUnder ds := by
    refine isFreeUnder_of_disjoint ?_
    simp [ds, FreeLattice.atom]
  have hfree : ∀ c ∈ cs, ∀ r ∈ c.reduced, ∀ a ∈ r.edge.antecedent?, a.IsFreeUnder ds := by
    simpa [cs, meetBound, Edge.antecedent?] using htwo
  have hzero : ¬(FreeLattice.atom 0).IsFreeUnder ds := by
    intro h
    have himply : BelowModulo ds .top (imply (.atom 0) (.atom 1)) :=
      h.isResiduated _ _ (by decide +kernel)
    revert himply
    decide +kernel
  exact ⟨hfree, (solution_greatest_modulo ds).1 cs hfree, hzero,
    (solution_greatest_modulo ds).2 (.atom 0) hzero () fun _ _ => ()⟩

-- The delegation makes the bound `1` next to `0` redundant. The unknown still gets `1`, which is not the
-- greatest value, and asking for all of the lattice is refused although it holds.
theorem not_findsGreatest_redundant_bound :
    let ds : List (Delegation Int) := [⟨.atom 0, .atom 1⟩]
    let bound : Constraint (FreeLattice Int) Unit (FreeLattice Int × FreeLattice Int) :=
      meetBound (.atom 0) (.atom 1) () Prod.mk
    let everything : Constraint (FreeLattice Int) Unit (FreeLattice Int × FreeLattice Int) :=
      ⟨.const .top, .var (), Prod.mk, [⟨.const .top, .identity, .var ()⟩], rfl⟩
    ¬FindsGreatest ds [bound] ∧
      HoldsModulo ds [bound, everything] (fun _ => .top) ∧
      (modulo ds [bound, everything]).solution = .error (.top, .atom 1) ∧
      ¬FindsGreatest ds [bound, everything] := by
  intro ds bound everything
  have hholds : HoldsModulo ds [bound, everything] (fun _ => .top) := by
    unfold HoldsModulo
    decide +kernel
  have hsolution : (modulo ds [bound, everything]).solution = .error (.top, .atom 1) := by cbv
  refine ⟨?_, hholds, hsolution, fun hfinds => ?_⟩
  · have hmeet : BelowModulo ds (meet (.atom 0) .top) (.atom 1) := by decide +kernel
    have himply : ¬BelowModulo ds .top (imply (.atom 0) (.atom 1)) := by decide +kernel
    exact not_findsGreatest_meetBound hmeet himply
  · obtain ⟨sol, hsol, _⟩ := hfinds ⟨_, hholds⟩
    rw [hsolution] at hsol
    cases hsol

end LabelInference.ConstraintSystem
