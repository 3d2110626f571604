import LabelInference.Proofs.ConstraintSystem.Greatest
import LabelInference.Proofs.FreeLattice.TrustOrder
import LabelInference.Proofs.Label.Flow

namespace LabelInference.LabelFlow

universe u v w

variable {α : Type u} [Ordered α] {ν : Type v} [DecidableEq ν] {ρ : Type w}
  {fs : List (LabelFlow (FreeLattice α) ν ρ)} {s : LabelSystem (FreeLattice α) ν ρ}
  {labels : ν → Label (FreeLattice α)}

theorem isSolution_valueIn_iff (h : system FreeLattice.bounds isBelow fs = .ok s) :
    s.IsSolution (ComponentVariable.valueIn labels) ↔ ∀ f ∈ fs, f.holds isBelow labels = true := by
  rw [forall_holds_iff h]
  simp only [isBelow_iff]
  constructor
  · intro hsolution
    exact hsolution.satisfies
  · intro hsatisfies
    refine ⟨fun x => ?_, hsatisfies⟩
    rw [bounds_of_system h]
    exact FreeLattice.below_top _

theorem actsFor_candidate (h : system FreeLattice.bounds isBelow fs = .ok s)
    (hlabels : ∀ f ∈ fs, f.holds isBelow labels = true) (x : ν) :
    (labels x).actsFor isBelow (s.labelCandidate.get x) = true := by
  have hsolution := (isSolution_valueIn_iff h).mpr hlabels
  have hconfidentiality := hsolution.below_candidate (.confidentiality x)
  have hintegrity := hsolution.below_candidate (.integrity x)
  unfold Label.actsFor
  rw [Bool.and_eq_true, isBelow_iff, isBelow_iff]
  exact ⟨hconfidentiality, hintegrity⟩

theorem holds_candidate (h : system FreeLattice.bounds isBelow fs = .ok s)
    (hlabels : ∀ f ∈ fs, f.holds isBelow labels = true) :
    ∀ f ∈ fs, f.holds isBelow s.labelCandidate.get = true := by
  have hsolution := (isSolution_valueIn_iff h).mpr hlabels
  have hcandidate := hsolution.candidate (ConstraintSystem.outcome_settled s)
  rw [← isSolution_valueIn_iff h, LabelSolution.valueIn_get]
  exact hcandidate

-- Labels are found whenever any labels allow all flows, and all such labels act for those that are found,
-- because the greatest value of a component is its weakest principal. Comparing without delegations is
-- comparing in the lattice.
theorem labelSolution_greatest {order : FreeLattice α → FreeLattice α → Bool}
    (horder : order = isBelow ∨ order = FreeLattice.entails [])
    (fs : List (LabelFlow (FreeLattice α) ν ρ)) (s : LabelSystem (FreeLattice α) ν ρ)
    (h : system FreeLattice.bounds order fs = .ok s) :
    s.outcome.settled = true ∧
      ((∃ sol, s.labelSolution = .ok sol) ↔ ∃ labels, ∀ f ∈ fs, f.holds order labels = true) ∧
      ∀ sol, s.labelSolution = .ok sol → (∀ f ∈ fs, f.holds order sol.get = true) ∧
        ∀ labels, (∀ f ∈ fs, f.holds order labels = true) →
          ∀ x, (labels x).actsFor order (sol.get x) = true := by
  have hbelow : order = isBelow := by
    rcases horder with rfl | rfl
    · rfl
    · exact FreeLattice.entails_nil
  subst hbelow
  refine ⟨ConstraintSystem.outcome_settled s, ⟨?_, ?_⟩, fun sol hsol => ?_⟩
  · rintro ⟨sol, hsol⟩
    exact ⟨sol.get, ((labelSolution_ok_iff h).mp hsol).2⟩
  · rintro ⟨labels, hlabels⟩
    exact ⟨s.labelCandidate, (labelSolution_ok_iff h).mpr ⟨rfl, holds_candidate h hlabels⟩⟩
  · obtain ⟨rfl, hholds⟩ := (labelSolution_ok_iff h).mp hsol
    exact ⟨hholds, fun labels hlabels => actsFor_candidate h hlabels⟩

-- A constant label and the unknown `0` flow to the unknown `1`, whose readers are bounded by a swap.
theorem labelSolution_greatest_swap :
    let fs : List (LabelFlow (FreeLattice Int) Nat Unit) :=
      [⟨.both, join (.ofLabel ⟨.atom 0, .atom 1⟩) (.ofVariable 0), .ofVariable 1, fun _ _ => ()⟩,
        ⟨.only .integrity, (LabelTerm.ofVariable 1).swap, .ofLabel (.uniform (.atom 2)),
          fun _ _ => ()⟩]
    ∃ s sol, system FreeLattice.bounds isBelow fs = .ok s ∧ s.labelSolution = .ok sol ∧
      (∀ f ∈ fs, f.holds isBelow sol.get = true) ∧
      ∀ labels, (∀ f ∈ fs, f.holds isBelow labels = true) →
        ∀ x, (labels x).actsFor isBelow (sol.get x) = true := by
  intro fs
  obtain ⟨s, hs⟩ : ∃ s, system FreeLattice.bounds isBelow fs = .ok s := ⟨_, rfl⟩
  have hlabels : ∀ f ∈ fs, f.holds isBelow (fun _ => ⟨.bottom, .top⟩) = true := by decide +kernel
  obtain ⟨_, hiff, hgreatest⟩ := labelSolution_greatest (.inl rfl) fs s hs
  obtain ⟨sol, hsol⟩ := hiff.mpr ⟨_, hlabels⟩
  exact ⟨s, sol, hs, hsol, hgreatest sol hsol⟩

end LabelInference.LabelFlow
