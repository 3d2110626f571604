import LabelInference.Proofs.FreeLattice.Residuals
import Mathlib.Tactic.TFAE

namespace LabelInference.FreeLattice

universe u

variable {α : Type u} [Ordered α]

theorem entails_nil : entails ([] : List (Delegation α)) = isBelow := by
  funext a b
  rw [Bool.eq_iff_iff, isBelow_iff, below_iff_holds, entails_iff_respectedBy]
  simp

-- A meet of the first element, read as a set of true atoms, makes the second one true. So the finite sets
-- are enough to find a meet of the second element inside.
theorem isStructurallyBelow_iff_holds_mem {a b : FreeLattice α} :
    a.isStructurallyBelow b = true ↔
      ∀ s : OrderedSet α, a.holds (· ∈ s) = true → b.holds (· ∈ s) = true := by
  constructor
  · intro h s
    exact holds_of_isStructurallyBelow h
  · intro h
    refine isStructurallyBelow_iff.mpr fun m hm => ?_
    obtain ⟨n, hn, hnm⟩ := holds_iff.mp (h m (holds_mem_of_mem hm))
    exact ⟨n, hn, fun x hx => of_decide_eq_true (hnm x hx)⟩

theorem isStructurallyBelow_iff_holds {a b : FreeLattice α} :
    a.isStructurallyBelow b = true ↔ ∀ truth, a.holds truth = true → b.holds truth = true :=
  ⟨fun h _ => holds_of_isStructurallyBelow h, isStructurallyBelow_of_holds⟩

-- The order is tested by a product of meets in canonical form, by a join, by a search for contained meets
-- and by the search for a counter model. All of them compare readings.
theorem order_tests_agree (a b : FreeLattice α) :
    [isBelow a b = true,
      join a b = b,
      a.isStructurallyBelow b = true,
      a.entails [] b = true,
      ∀ s : OrderedSet α, a.holds (· ∈ s) = true → b.holds (· ∈ s) = true,
      ∀ truth : α → Bool, a.holds truth = true → b.holds truth = true].TFAE := by
  tfae_have 1 ↔ 2 := isBelow_iff.trans below_iff_join_eq
  tfae_have 1 ↔ 4 := by rw [entails_nil]
  tfae_have 1 ↔ 6 := isBelow_iff.trans below_iff_holds
  tfae_have 3 ↔ 5 := isStructurallyBelow_iff_holds_mem
  tfae_have 3 ↔ 6 := isStructurallyBelow_iff_holds
  tfae_finish

-- Delegations that hold modulo others add nothing to them: what they entail follows from the others.
theorem entails_cut {as bs : List (Delegation α)} {a b : FreeLattice α}
    (h : ∀ d ∈ as, d.lower.entails bs d.upper = true) (hab : a.entails as b = true) :
    a.entails bs b = true := by
  refine entails_iff_respectedBy.mpr fun truth hbs ha => ?_
  have has : ∀ d ∈ as, d.respectedBy truth = true := fun d hd =>
    Delegation.respectedBy_iff.mpr (entails_iff_respectedBy.mp (h d hd) truth hbs)
  exact entails_iff_respectedBy.mp hab truth has ha

theorem entails_of_mem {ds : List (Delegation α)} {d : Delegation α} (hd : d ∈ ds) :
    d.lower.entails ds d.upper = true :=
  entails_iff_respectedBy.mpr fun _ hds => Delegation.respectedBy_iff.mp (hds d hd)

def IsTrustOrder (order : FreeLattice α → FreeLattice α → Bool) : Prop :=
  order = isBelow ∨ ∃ ds, order = entails ds

variable {order : FreeLattice α → FreeLattice α → Bool}

theorem IsTrustOrder.exists_eq_entails (h : IsTrustOrder order) : ∃ ds, order = entails ds := by
  rcases h with rfl | h
  · exact ⟨[], entails_nil.symm⟩
  · exact h

theorem IsTrustOrder.isCoarsening (h : IsTrustOrder order) :
    IsCoarsening fun a b => order a b = true := by
  obtain ⟨ds, rfl⟩ := h.exists_eq_entails
  exact isCoarsening_belowModulo ds

end LabelInference.FreeLattice
