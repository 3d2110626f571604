import LabelInference.Label.Basic
import LabelInference.Proofs.FreeLattice.TrustOrder

namespace LabelInference

universe u

namespace Label

variable {γ : Type u} {order : γ → γ → Bool} {a b c : Label γ}

theorem flowsTo_iff : a.flowsTo order b = true ↔
    order b.confidentiality a.confidentiality = true ∧ order a.integrity b.integrity = true := by
  rw [flowsTo, Bool.and_eq_true]

theorem actsFor_iff : a.actsFor order b = true ↔
    order a.confidentiality b.confidentiality = true ∧ order a.integrity b.integrity = true := by
  rw [actsFor, Bool.and_eq_true]

-- Each component may have an order of its own.
theorem isLatticeOrder_components {R S : γ → γ → Prop} {lowerR upperR lowerS upperS : γ → γ → γ}
    (hR : IsLatticeOrder R lowerR upperR) (hS : IsLatticeOrder S lowerS upperS) :
    IsLatticeOrder
      (fun a b : Label γ => R a.confidentiality b.confidentiality ∧ S a.integrity b.integrity)
      (fun a b => ⟨lowerR a.confidentiality b.confidentiality, lowerS a.integrity b.integrity⟩)
      (fun a b => ⟨upperR a.confidentiality b.confidentiality, upperS a.integrity b.integrity⟩) where
  refl a := ⟨hR.refl _, hS.refl _⟩
  trans hab hbc := ⟨hR.trans hab.1 hbc.1, hS.trans hab.2 hbc.2⟩
  lower_iff {a b z} := by
    rw [and_and_and_comm]
    exact and_congr hR.lower_iff hS.lower_iff
  upper_iff {a b z} := by
    rw [and_and_and_comm]
    exact and_congr hR.upper_iff hS.upper_iff

variable [Join γ] [Meet γ]

-- A label that both flow to has fewer readers than either, so on confidentiality the upper bound is the
-- lower one of principals.
theorem isLatticeOrder_flowsTo (h : IsLatticeOrder (fun p q => order p q = true) meet join) :
    IsLatticeOrder (fun a b : Label γ => a.flowsTo order b = true) meet join := by
  simp only [flowsTo_iff]
  exact isLatticeOrder_components h.dual h

theorem isLatticeOrder_actsFor (h : IsLatticeOrder (fun p q => order p q = true) meet join) :
    IsLatticeOrder (fun a b : Label γ => a.actsFor order b = true) conj disj := by
  simp only [actsFor_iff]
  exact isLatticeOrder_components h h

-- Whatever the delegations, labels are compared with a joined label as they are with its parts.
theorem bounds_modulo_delegations {α : Type u} [Ordered α] (ds : List (Delegation α)) :
    IsLatticeOrder (fun a b : Label (FreeLattice α) => a.flowsTo (FreeLattice.entails ds) b = true)
        meet join ∧
      IsLatticeOrder (fun a b : Label (FreeLattice α) => a.actsFor (FreeLattice.entails ds) b = true)
        conj disj := by
  have hprincipals : IsLatticeOrder
      (fun p q : FreeLattice α => p.entails ds q = true) meet join :=
    (FreeLattice.isCoarsening_belowModulo ds).isLatticeOrder
  exact ⟨isLatticeOrder_flowsTo hprincipals, isLatticeOrder_actsFor hprincipals⟩

end Label

end LabelInference
