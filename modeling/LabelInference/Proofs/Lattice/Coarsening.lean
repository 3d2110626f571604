import LabelInference.Proofs.Lattice.Bounds

namespace LabelInference

universe u

variable {α : Type u}

-- Joins and meets are still bounds in such an order, but implications may no longer be adjoint to meets.
structure IsCoarsening [Meet α] (R : α → α → Prop) : Prop where
  trans : ∀ {a b c}, R a b → R b c → R a c
  of_below : ∀ {a b}, Below a b → R a b
  join_iff : ∀ {vs a}, IsJoinOf vs a → ∀ b, R a b ↔ ∀ v ∈ vs, R v b
  meet_iff : ∀ {vs b}, IsMeetOf vs b → ∀ a, R a b ↔ ∀ v ∈ vs, R a v

-- An order, with elements that may lie below each other, and a greatest lower and a least upper bound of
-- any two.
structure IsLatticeOrder (R : α → α → Prop) (lower upper : α → α → α) : Prop where
  refl : ∀ a, R a a
  trans : ∀ {a b c}, R a b → R b c → R a c
  lower_iff : ∀ {a b z}, R z (lower a b) ↔ R z a ∧ R z b
  upper_iff : ∀ {a b z}, R (upper a b) z ↔ R a z ∧ R b z

theorem IsLatticeOrder.dual {R : α → α → Prop} {lower upper : α → α → α}
    (h : IsLatticeOrder R lower upper) : IsLatticeOrder (fun a b => R b a) upper lower where
  refl := h.refl
  trans hab hbc := h.trans hbc hab
  lower_iff := h.upper_iff
  upper_iff := h.lower_iff

-- The adjunction at one antecedent. The other direction holds in every coarsening.
def IsResiduated [Meet α] [Imply α] (R : α → α → Prop) (a : α) : Prop :=
  ∀ x y, R (meet a x) y → R x (imply a y)

section Meet

variable [Meet α] [LawfulMeet α] {R : α → α → Prop}

theorem isCoarsening_below : IsCoarsening (Below : α → α → Prop) where
  trans := Below.trans
  of_below h := h
  join_iff h := h
  meet_iff h := h

theorem IsCoarsening.refl (hR : IsCoarsening R) (a : α) : R a a := hR.of_below (Below.refl a)

theorem IsCoarsening.rel_meet_iff (hR : IsCoarsening R) {a b c : α} :
    R a (meet b c) ↔ R a b ∧ R a c := by
  rw [hR.meet_iff ((isMeetOf_singleton b).append (isMeetOf_singleton c))]
  simp

end Meet

section Lattice

variable [Join α] [Meet α] [LawfulLattice α] {R : α → α → Prop}

theorem IsCoarsening.join_rel_iff (hR : IsCoarsening R) {a b c : α} :
    R (join a b) c ↔ R a c ∧ R b c := by
  rw [hR.join_iff ((isJoinOf_singleton a).append (isJoinOf_singleton b))]
  simp

theorem IsCoarsening.isLatticeOrder (hR : IsCoarsening R) : IsLatticeOrder R meet join where
  refl := hR.refl
  trans := hR.trans
  lower_iff := hR.rel_meet_iff
  upper_iff := hR.join_rel_iff

theorem IsCoarsening.join_right (hR : IsCoarsening R) {x y : α} (c : α) (h : R x y) :
    R (join c x) (join c y) :=
  hR.join_rel_iff.mpr
    ⟨hR.of_below (below_join_left c y), hR.trans h (hR.of_below (below_join_right c y))⟩

end Lattice

theorem isResiduated_below [Join α] [Meet α] [Imply α] [LawfulHeyting α] (a : α) :
    IsResiduated Below a :=
  fun _ _ h => below_imply_iff.mpr h

end LabelInference
