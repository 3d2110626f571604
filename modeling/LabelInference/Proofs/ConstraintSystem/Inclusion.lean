import LabelInference.Proofs.ConstraintSystem.Confinement
import LabelInference.Proofs.ConstraintSystem.Leniency
import Mathlib.Computability.Primrec.List
import Mathlib.Data.Fin.Tuple.Take
import Mathlib.Data.List.Permutation

-- The imported Mathlib modules have the equations of `List.lookup`, `Fin.cast` and `Prod.snd` by which `cbv` evaluates a run.

namespace LabelInference

universe u v w w'

namespace Constraint

variable {γ : Type u} {ν : Type v} {ρ : Type w} {ρ' : Type w'} [Join γ] [Meet γ] [DecidableEq ν]

-- The same demand, whatever is reported when it is not met.
structure SameSides (c : Constraint γ ν ρ) (c' : Constraint γ ν ρ') : Prop where
  lower : c.lower = c'.lower
  upper : c.upper = c'.upper

-- Every pair of sides in the first list is one of the second list.
def SidesSubset (cs : List (Constraint γ ν ρ)) (cs' : List (Constraint γ ν ρ')) : Prop :=
  ∀ c ∈ cs, ∃ c' ∈ cs', c.SameSides c'

variable {c : Constraint γ ν ρ} {c' : Constraint γ ν ρ'}

theorem SameSides.symm (h : c.SameSides c') : c'.SameSides c := ⟨h.lower.symm, h.upper.symm⟩

theorem SameSides.reduced_eq (h : c.SameSides c') : c.reduced = c'.reduced := by
  have hreduces := c.reduces
  rw [h.lower, h.upper, c'.reduces] at hreduces
  exact (Except.ok.inj hreduces).symm

end Constraint

namespace ConstraintSystem

section General

variable {γ : Type u} {ν : Type v} {ρ : Type w} {ρ' : Type w'} [Join γ] [Meet γ] [DecidableEq ν]
  {s : ConstraintSystem γ ν ρ} {s' : ConstraintSystem γ ν ρ'}

theorem reduced_subset (h : Constraint.SidesSubset s.constraints s'.constraints) :
    s.reduced ⊆ s'.reduced := by
  intro r hr
  obtain ⟨c, hc, hr⟩ := mem_reduced.mp hr
  obtain ⟨c', hc', hsame⟩ := h c hc
  rw [hsame.reduced_eq] at hr
  exact mem_reduced.mpr ⟨c', hc', hr⟩

variable [Imply γ] [ChainBound γ] [DecidableEq γ]

variable [LawfulHeyting γ] (hs : s.outcome.settled = true) (hs' : s'.outcome.settled = true)
include hs hs'

-- The candidate respects the bounds of every part of its system.
theorem candidate_antitone (htop : Below s'.bounds.top s.bounds.top) (h : s.reduced ⊆ s'.reduced)
    (x : ν) : Below (s'.candidate.get x) (s.candidate.get x) :=
  candidate_below_of_confined htop hs' hs (P := fun _ => True)
    (fun _ hr _ _ _ => ⟨h hr, fun _ _ => trivial⟩) trivial

theorem mem_violated_of_sidesSubset (hR : IsCoarsening fun a b => s.order a b = true)
    (horder : s'.order = s.order) (htop : Below s'.bounds.top s.bounds.top)
    (h : Constraint.SidesSubset s.constraints s'.constraints) {c : Constraint γ ν ρ}
    {c' : Constraint γ ν ρ'} (hc' : c' ∈ s'.constraints) (hsame : c.SameSides c')
    (hviolated : c ∈ s.violated) : c' ∈ s'.violated := by
  obtain ⟨hc, hfails⟩ := mem_violated.mp hviolated
  refine mem_violated.mpr ⟨hc', fun hholds => hfails ?_⟩
  have hvalue : ∀ x, s.order (s'.candidate.get x) (s.candidate.get x) = true := fun x =>
    hR.of_below (candidate_antitone hs hs' htop (reduced_subset h) x)
  rw [horder, ← hsame.lower, ← hsame.upper] at hholds
  exact rel_eval_candidate hR hs hc hvalue hholds

end General

variable {α : Type u} [Ordered α] {ν : Type v} [DecidableEq ν] {ρ : Type w} {ρ' : Type w'}

-- If all constraints of a system are among those of another one with the same bounds and order, then the
-- candidate of the larger system is below its own, what it violates is violated there too, and it is
-- solvable if the larger one is. Systems with the same constraints, permuted or repeated, agree.
theorem more_constraints_only_lower (b : Bounds (FreeLattice α))
    {order : FreeLattice α → FreeLattice α → Bool} (horder : FreeLattice.IsTrustOrder order)
    (cs : List (Constraint (FreeLattice α) ν ρ)) (cs' : List (Constraint (FreeLattice α) ν ρ'))
    (h : Constraint.SidesSubset cs cs') :
    let s : ConstraintSystem (FreeLattice α) ν ρ := ⟨cs, b, order⟩
    let s' : ConstraintSystem (FreeLattice α) ν ρ' := ⟨cs', b, order⟩
    (∀ x, Below (s'.candidate.get x) (s.candidate.get x)) ∧
      (∀ c ∈ cs, ∀ c' ∈ cs', c.SameSides c' → c ∈ s.violated → c' ∈ s'.violated) ∧
      ((∃ sol, s'.solution = .ok sol) → ∃ sol, s.solution = .ok sol) ∧
      (Constraint.SidesSubset cs' cs →
        (∀ x, s.candidate.get x = s'.candidate.get x) ∧
          ∀ c ∈ cs, ∀ c' ∈ cs', c.SameSides c' → (c ∈ s.violated ↔ c' ∈ s'.violated)) := by
  intro s s'
  have hs := outcome_settled s
  have hs' := outcome_settled s'
  have hR := horder.isCoarsening
  have htop : Below b.top b.top := Below.refl b.top
  have hviolated : ∀ c ∈ cs, ∀ c' ∈ cs', c.SameSides c' → c ∈ s.violated → c' ∈ s'.violated :=
    fun c _ c' hc' hsame => mem_violated_of_sidesSubset hs hs' hR rfl htop h hc' hsame
  refine ⟨candidate_antitone hs hs' htop (reduced_subset h), hviolated, fun hsolvable => ?_,
    fun h' => ⟨fun x => ?_, fun c hc c' hc' hsame => ⟨hviolated c hc c' hc' hsame, ?_⟩⟩⟩
  · rw [exists_solution_iff] at hsolvable ⊢
    intro c hc
    obtain ⟨c', hc', hsame⟩ := h c (mem_violated.mp hc).1
    exact hsolvable c' (hviolated c (mem_violated.mp hc).1 c' hc' hsame hc)
  · exact Below.antisymm (candidate_antitone hs' hs htop (reduced_subset h') x)
      (candidate_antitone hs hs' htop (reduced_subset h) x)
  · exact mem_violated_of_sidesSubset hs' hs hR rfl htop h' hc hsame.symm

-- The second list bounds the unknown once more. The demand of `1` is met by the delegation until then, that of
-- `3` never. The third list is the first one in another order, with a repetition.
theorem more_constraints_only_lower_second_bound :
    let bound (k : Int) : Constraint (FreeLattice Int) Unit Int :=
      ⟨.var (), .const (.atom k), fun _ _ => k, [⟨.var (), .identity, .const (.atom k)⟩], rfl⟩
    let demand (k : Int) : Constraint (FreeLattice Int) Unit Int :=
      ⟨.const (.atom k), .var (), fun _ _ => k, [⟨.const (.atom k), .identity, .var ()⟩], rfl⟩
    let system (cs : List (Constraint (FreeLattice Int) Unit Int)) :
        ConstraintSystem (FreeLattice Int) Unit Int :=
      ⟨cs, FreeLattice.bounds, FreeLattice.entails [⟨.atom 1, .atom 0⟩]⟩
    let cs := [bound 0, demand 1, demand 3]
    let cs' := [demand 3, demand 1, bound 2, bound 0]
    let permuted := [demand 3, bound 0, demand 1, bound 0]
    FreeLattice.IsTrustOrder (system cs).order ∧ Constraint.SidesSubset cs cs' ∧
      (system cs).violations = [3] ∧ (system cs').violations = [3, 1] ∧
      Below ((system cs').candidate.get ()) ((system cs).candidate.get ()) ∧
      demand 3 ∈ (system cs').violated ∧
      Constraint.SidesSubset cs permuted ∧ Constraint.SidesSubset permuted cs ∧
      (system cs).candidate.get () = (system permuted).candidate.get () := by
  intro bound demand system cs cs' permuted
  have horder : FreeLattice.IsTrustOrder (system cs).order := .inr ⟨_, rfl⟩
  have hsub : ∀ {as bs : List (Constraint (FreeLattice Int) Unit Int)}, as ⊆ bs →
      Constraint.SidesSubset as bs := fun h c hc => ⟨c, h hc, rfl, rfl⟩
  have hcs' : Constraint.SidesSubset cs cs' := hsub (by simp [cs, cs'])
  have hpermuted : Constraint.SidesSubset cs permuted := hsub (by simp [cs, permuted])
  have hpermuted' : Constraint.SidesSubset permuted cs := hsub (by simp [cs, permuted])
  have hfails : (system cs).order (.atom 3) ((system cs).candidate.get ()) = false := by cbv
  have hviolated : demand 3 ∈ (system cs).violated :=
    mem_violated.mpr ⟨by simp [system, cs], Bool.not_eq_true _ ▸ hfails⟩
  have hsmall : (system cs).violations = [3] := by cbv
  have hlarge : (system cs').violations = [3, 1] := by cbv
  obtain ⟨hbelow, hstays, _⟩ := more_constraints_only_lower FreeLattice.bounds horder cs cs' hcs'
  obtain ⟨_, _, _, hsame⟩ :=
    more_constraints_only_lower FreeLattice.bounds horder cs permuted hpermuted
  refine ⟨horder, hcs', hsmall, hlarge, hbelow (), ?_, hpermuted, hpermuted',
    (hsame hpermuted').1 ()⟩
  exact hstays _ (by simp [cs]) _ (by simp [cs']) ⟨rfl, rfl⟩ hviolated

end ConstraintSystem

end LabelInference
