import LabelInference.Proofs.ConstraintSystem.Solution

namespace LabelInference

universe u v w w'

variable {γ : Type u} {ν : Type v} [Join γ] [Meet γ]

theorem AtomicTerm.eval_below [LawfulMeet γ] {t : AtomicTerm γ ν} {value value' : ν → γ}
    (h : ∀ x, t = .var x → Below (value x) (value' x)) :
    Below (t.toTerm.eval value) (t.toTerm.eval value') := by
  cases t with
  | const c => exact Below.refl c
  | var x => exact h x rfl

variable [Imply γ] [LawfulHeyting γ]

-- A bound that holds goes on to hold when its right side is raised.
theorem AtomicConstraint.HoldsUnder.raise {r : AtomicConstraint γ ν} {value value' : ν → γ}
    (h : r.HoldsUnder value) (hupper : ∀ x, r.upper = .var x → Below (value x) (value' x)) :
    Below (r.lower.toTerm.eval value) (r.edge.propagate (r.upper.toTerm.eval value')) :=
  Below.trans h (r.edge.propagate_mono (AtomicTerm.eval_below hupper))

namespace ConstraintSystem

section RaiseOn

variable {P : ν → Prop} [DecidablePred P] {value value' : ν → γ} {x : ν}

-- The second assignment, joined with the first on a set of unknowns.
def raiseOn (P : ν → Prop) [DecidablePred P] (value value' : ν → γ) (x : ν) : γ :=
  if P x then join (value x) (value' x) else value' x

omit [Imply γ] [LawfulHeyting γ] [Meet γ] in
theorem raiseOn_of_not (hx : ¬P x) : raiseOn P value value' x = value' x :=
  if_neg hx

omit [Imply γ] [LawfulHeyting γ] [Meet γ] in
theorem raiseOn_of (hx : P x) : raiseOn P value value' x = join (value x) (value' x) :=
  if_pos hx

theorem below_raiseOn_left (hx : P x) : Below (value x) (raiseOn P value value' x) := by
  rw [raiseOn_of hx]
  exact below_join_left _ _

theorem below_raiseOn_right (x : ν) : Below (value' x) (raiseOn P value value' x) := by
  by_cases hx : P x
  · rw [raiseOn_of hx]
    exact below_join_right _ _
  · rw [raiseOn_of_not hx]
    exact Below.refl _

theorem raiseOn_below {a : γ} (h : P x → Below (value x) a) (h' : Below (value' x) a) :
    Below (raiseOn P value value' x) a := by
  by_cases hx : P x
  · rw [raiseOn_of hx]
    exact join_below_iff.mpr ⟨h hx, h'⟩
  · rw [raiseOn_of_not hx]
    exact h'

end RaiseOn

variable {ρ : Type w} {ρ' : Type w'} [DecidableEq ν]

-- An assignment below the top value that respects the bounds on unknowns.
structure RespectsBounds (s : ConstraintSystem γ ν ρ) (value : ν → γ) : Prop where
  below_top : ∀ x, Below (value x) s.bounds.top
  holds : ∀ r ∈ s.reduced, ∀ x, r.lower = .var x → r.HoldsUnder value

section Raise

variable {s : ConstraintSystem γ ν ρ} {s' : ConstraintSystem γ ν ρ'} {value value' : ν → γ}

-- Raising an upper unknown keeps a bound. On the set the raised value is bounded by what bounds the two
-- values that it joins.
theorem RespectsBounds.raiseOn (h : s.RespectsBounds value) (h' : s'.RespectsBounds value')
    (htop : Below s.bounds.top s'.bounds.top) {P : ν → Prop} [DecidablePred P]
    (hconfined : ∀ r ∈ s'.reduced, ∀ x, P x → r.lower = .var x →
      r ∈ s.reduced ∧ ∀ y, r.upper = .var y → P y) :
    s'.RespectsBounds (raiseOn P value value') where
  below_top x := raiseOn_below (fun _ => (h.below_top x).trans htop) (h'.below_top x)
  holds r hr x hlower := by
    have hbelow' : Below (r.lower.toTerm.eval value')
        (r.edge.propagate (r.upper.toTerm.eval (ConstraintSystem.raiseOn P value value'))) :=
      (h'.holds r hr x hlower).raise fun y _ => below_raiseOn_right y
    unfold AtomicConstraint.HoldsUnder
    rw [hlower] at hbelow' ⊢
    refine raiseOn_below (fun hx => ?_) hbelow'
    obtain ⟨hmem, hupper⟩ := hconfined r hr x hx hlower
    have hbelow : Below (r.lower.toTerm.eval value)
        (r.edge.propagate (r.upper.toTerm.eval (ConstraintSystem.raiseOn P value value'))) :=
      (h.holds r hmem x hlower).raise fun y hy => below_raiseOn_left (hupper y hy)
    rw [hlower] at hbelow
    exact hbelow

end Raise

variable [DecidableEq γ] {s : ConstraintSystem γ ν ρ} {s' : ConstraintSystem γ ν ρ'} {value : ν → γ}

theorem RespectsBounds.below_image (h : s.RespectsBounds value) (v : Fin s.nodes.length) :
    Below ((s.graph.nodes.get v).toTerm.eval value)
      (flow.image s.graph s.bounds.top (fun u => (s.graph.nodes.get u).toTerm.eval value) v) := by
  cases hv : s.graph.nodes.get v with
  | const c =>
    rw [image_of_const hv]
    exact Below.refl c
  | var x =>
    refine (below_image_iff hv).mpr ⟨h.below_top x, fun r hr hindex => ?_⟩
    have hlower : r.lower = .var x := by rw [← hv, ← hindex, get_nodes_index]
    have hholds := h.holds r hr x hlower
    unfold AtomicConstraint.HoldsUnder at hholds
    rw [hlower] at hholds
    rw [get_nodes_index]
    exact hholds

variable [ChainBound γ]

theorem candidate_respectsBounds (hs : s.outcome.settled = true) :
    s.RespectsBounds s.candidate.get where
  below_top := candidate_below_top hs
  holds _ hr _ hlower := holdsUnder_candidate hs hr hlower

theorem RespectsBounds.below_candidate (h : s.RespectsBounds value) (x : ν) :
    Below (value x) (s.candidate.get x) := by
  by_cases hx : .var x ∈ s.nodes
  · have hbelow : Below ((s.graph.nodes.get (s.index (.var x) hx)).toTerm.eval value)
        (s.outcome.values.get (s.index (.var x) hx)) :=
      Dataflow.FlowFunctions.below_solveAlong flow_isMonotone h.below_image _
    rw [get_nodes_index] at hbelow
    rw [get_candidate_of_mem hx]
    exact hbelow
  · rw [get_candidate_of_not_mem hx]
    exact h.below_top x

-- The candidate of one system lies below that of another on a set of unknowns whose bounds in the other
-- are bounds of the first and stay within the set.
theorem candidate_below_of_confined (htop : Below s.bounds.top s'.bounds.top)
    (hs : s.outcome.settled = true) (hs' : s'.outcome.settled = true) {P : ν → Prop}
    (hconfined : ∀ r ∈ s'.reduced, ∀ x, P x → r.lower = .var x →
      r ∈ s.reduced ∧ ∀ y, r.upper = .var y → P y) {x : ν} (hx : P x) :
    Below (s.candidate.get x) (s'.candidate.get x) := by
  classical
  have hraised := (candidate_respectsBounds hs).raiseOn (candidate_respectsBounds hs') htop hconfined
  exact (below_raiseOn_left hx).trans (hraised.below_candidate x)

-- Systems with the same bounds on the unknowns of a set agree on it if these bounds stay within it.
theorem get_candidate_eq_of_confined (htop : s.bounds.top = s'.bounds.top)
    (hs : s.outcome.settled = true) (hs' : s'.outcome.settled = true) {P : ν → Prop}
    (hsame : ∀ r x, P x → r.lower = .var x → (r ∈ s.reduced ↔ r ∈ s'.reduced))
    (hwithin : ∀ r ∈ s.reduced, ∀ x, P x → r.lower = .var x → ∀ y, r.upper = .var y → P y)
    {x : ν} (hx : P x) : s.candidate.get x = s'.candidate.get x := by
  apply Below.antisymm
  · refine candidate_below_of_confined (htop ▸ Below.refl _) hs hs' (fun r hr y hy hlower => ?_) hx
    have hmem := (hsame r y hy hlower).mpr hr
    exact ⟨hmem, hwithin r hmem y hy hlower⟩
  · refine candidate_below_of_confined (htop ▸ Below.refl _) hs' hs (fun r hr y hy hlower => ?_) hx
    exact ⟨(hsame r y hy hlower).mp hr, hwithin r hr y hy hlower⟩

end ConstraintSystem

end LabelInference
