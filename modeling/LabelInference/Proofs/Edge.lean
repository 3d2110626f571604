import LabelInference.Edge
import LabelInference.Proofs.FreeLattice.Reading
import LabelInference.Proofs.Lattice.Coarsening

namespace LabelInference

universe u

variable {γ : Type u}

-- A value with an optional constant combined on its left.
def beside (op : γ → γ → γ) : Option γ → γ → γ
  | none, x => x
  | some c, x => op c x

namespace Edge

@[simp] theorem antecedent?_compose (antecedent constant : Option γ) :
    (compose antecedent constant).antecedent? = antecedent := by
  cases antecedent <;> cases constant <;> rfl

@[simp] theorem constant?_compose (antecedent constant : Option γ) :
    (compose antecedent constant).constant? = constant := by
  cases antecedent <;> cases constant <;> rfl

theorem compose_eq (e : Edge γ) : compose e.antecedent? e.constant? = e := by
  cases e <;> rfl

variable [Join γ] [Meet γ] [Imply γ] [LawfulHeyting γ]

theorem below_propagate_compose_iff {antecedent constant : Option γ} {x y : γ} :
    Below x ((compose antecedent constant).propagate y) ↔
      Below (beside meet antecedent x) (beside LabelInference.join constant y) := by
  cases antecedent <;> cases constant <;>
    simp only [compose, propagate, beside, below_imply_iff]

theorem below_propagate_iff {e : Edge γ} {x y : γ} :
    Below x (e.propagate y) ↔
      Below (beside meet e.antecedent? x) (beside LabelInference.join e.constant? y) := by
  rw [← below_propagate_compose_iff, compose_eq]

omit [LawfulHeyting γ] in
-- What the two sides allow, the edge allows as well.
theorem rel_propagate {R : γ → γ → Prop} {e : Edge γ} (he : ∀ a ∈ e.antecedent?, IsResiduated R a)
    {x y : γ} (h : R (beside meet e.antecedent? x) (beside LabelInference.join e.constant? y)) :
    R x (e.propagate y) := by
  cases e with
  | identity => exact h
  | imply a => exact he a rfl x y h
  | join c => exact h
  | implyThenJoin a c => exact he a rfl x (LabelInference.join c y) h

theorem rel_beside_join {R : γ → γ → Prop} (hR : IsCoarsening R) (c : Option γ) {x y : γ}
    (h : R x y) : R (beside LabelInference.join c x) (beside LabelInference.join c y) := by
  cases c with
  | none => exact h
  | some c => exact hR.join_right c h

theorem beside_join_meet (c : Option γ) (u v : γ) :
    beside LabelInference.join c (meet u v) =
      meet (beside LabelInference.join c u) (beside LabelInference.join c v) := by
  cases c with
  | none => rfl
  | some c => exact join_meet_left c u v

theorem below_beside_join (c : Option γ) (u : γ) : Below u (beside LabelInference.join c u) := by
  cases c with
  | none => exact Below.refl u
  | some c => exact below_join_right c u

theorem propagate_meet (e : Edge γ) (u v : γ) :
    e.propagate (meet u v) = meet (e.propagate u) (e.propagate v) := by
  refine eq_of_forall_below_iff fun x => ?_
  rw [below_propagate_iff, beside_join_meet, below_meet_iff, below_meet_iff, below_propagate_iff,
    below_propagate_iff]

theorem propagate_top {top : γ} (htop : ∀ a, Below a top) (e : Edge γ) : e.propagate top = top := by
  refine Below.antisymm (htop _) (below_propagate_iff.mpr ?_)
  exact (htop _).trans (below_beside_join e.constant? top)

-- The order is read off the meet, which is preserved.
theorem propagate_mono (e : Edge γ) {x y : γ} (h : Below x y) :
    Below (e.propagate x) (e.propagate y) := by
  unfold Below at h ⊢
  rw [← propagate_meet, h]

-- A value may be propagated exactly if the two sides with their constants are in order. So an edge maps
-- meets to meets and the greatest element to itself, and it is monotone.
theorem propagate_compose_residual {top : γ} (htop : ∀ a, Below a top)
    (antecedent constant : Option γ) :
    let e := compose antecedent constant
    (∀ x y, Below (beside meet antecedent x) (beside LabelInference.join constant y) ↔
        Below x (e.propagate y)) ∧
      (∀ u v, e.propagate (meet u v) = meet (e.propagate u) (e.propagate v)) ∧
      e.propagate top = top ∧
      ∀ u v, Below u v → Below (e.propagate u) (e.propagate v) := by
  intro e
  exact ⟨fun _ _ => below_propagate_compose_iff.symm, e.propagate_meet, e.propagate_top htop,
    fun _ _ => e.propagate_mono⟩

-- With both constants, where the join comes before the implication.
theorem propagate_compose_residual_two_constants :
    let a (k : Int) : FreeLattice Int := .atom k
    let e := compose (some (a 0)) (some (a 1))
    (∀ b : FreeLattice Int, Below b .top) ∧
      (Below (meet (a 0) (a 2)) (LabelInference.join (a 1) (a 3)) ↔
        Below (a 2) (e.propagate (a 3))) ∧
      e.propagate (meet (a 2) (a 3)) = meet (e.propagate (a 2)) (e.propagate (a 3)) ∧
      e.propagate .top = .top ∧
      Below (e.propagate .bottom) (e.propagate (a 2)) := by
  intro a e
  obtain ⟨hresidual, hmeet, htop, hmono⟩ :=
    propagate_compose_residual FreeLattice.below_top (some (a 0)) (some (a 1))
  exact ⟨FreeLattice.below_top, hresidual (a 2) (a 3), hmeet (a 2) (a 3), htop,
    hmono .bottom (a 2) (FreeLattice.bottom_below _)⟩

end Edge

end LabelInference
