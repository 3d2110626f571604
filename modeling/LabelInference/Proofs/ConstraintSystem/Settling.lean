import LabelInference.Proofs.ConstraintSystem.Graph
import LabelInference.Proofs.Dataflow.Allowance
import LabelInference.Proofs.Edge
import LabelInference.Proofs.FreeLattice.Height

namespace LabelInference

universe u v w

open Dataflow

section Sublattice

variable {γ : Type u} [Join γ] [Meet γ] [Imply γ]

-- Elements that the operations keep among themselves.
structure IsSublattice (P : γ → Prop) : Prop where
  join : ∀ {a b}, P a → P b → P (join a b)
  meet : ∀ {a b}, P a → P b → P (meet a b)
  imply : ∀ {a b}, P a → P b → P (imply a b)

theorem IsSublattice.propagate {P : γ → Prop} (hP : IsSublattice P) {e : Edge γ}
    (he : ∀ c ∈ e.constants, P c) {a : γ} (ha : P a) : P (e.propagate a) := by
  cases e with
  | identity => exact ha
  | imply d => exact hP.imply (he d (by simp [Edge.constants, Edge.antecedent?])) ha
  | join c => exact hP.join (he c (by simp [Edge.constants, Edge.constant?])) ha
  | implyThenJoin d c =>
    have hd := he d (by simp [Edge.constants, Edge.antecedent?])
    have hc := he c (by simp [Edge.constants, Edge.constant?])
    exact hP.imply hd (hP.join hc ha)

-- Around any given elements there is a sublattice of which the chain bound is right.
class LawfulChainBound (γ : Type u) [Join γ] [Meet γ] [Imply γ] [ChainBound γ] : Prop where
  exists_rank : ∀ es : List γ, ∃ (P : γ → Prop) (rank : γ → Nat),
    (∀ e ∈ es, P e) ∧ IsSublattice P ∧ IsRank P rank (chainBound es)

end Sublattice

namespace ConstraintSystem

section Free

variable {α : Type u} [Ordered α]

theorem isSublattice_isOver (as : OrderedSet α) : IsSublattice (FreeLattice.IsOver as) where
  join ha hb := ha.join hb
  meet ha hb := ha.meet hb
  imply {a _} _ hb := hb.imply a

theorem isRank_models (es : List (FreeLattice α)) :
    IsRank (FreeLattice.IsOver (FreeLattice.atomsOf es))
      (fun a => (a.models (FreeLattice.atomsOf es)).card) (chainBound es) where
  lt _ hb h := FreeLattice.card_models_lt hb h
  le _ := FreeLattice.card_models_le_chainBound es _

instance : LawfulChainBound (FreeLattice α) where
  exists_rank es := ⟨_, _, fun _ he => FreeLattice.isOver_atomsOf he,
    isSublattice_isOver (FreeLattice.atomsOf es), isRank_models es⟩

end Free

variable {γ : Type u} {ν : Type v} [Join γ] [Meet γ] [Imply γ]

theorem flow_isMonotone [LawfulHeyting γ] :
    (flow : FlowFunctions (AtomicTerm γ ν) (Edge γ) γ).IsMonotone where
  transfer node := by
    intro a b h
    cases node with
    | const c => exact Below.refl c
    | var x => exact h
  propagate e := by
    intro a b h
    exact e.propagate_mono h

-- No equation leads out of a sublattice of its ingredients.
theorem closed_of_ingredients {P : γ → Prop} (hP : IsSublattice P) {n : Nat}
    (g : Graph n (AtomicTerm γ ν) (Edge γ)) (top : γ) (h : ∀ e ∈ ingredients top g, P e) :
    flow.Closed g top P where
  top := h top List.mem_cons_self
  meet := hP.meet
  transfer v := by
    intro a ha
    cases hv : g.nodes.get v with
    | var x => exact ha
    | const c =>
      have hnode : .const c ∈ g.nodes.toList := by
        rw [← hv]
        exact Vector.mem_toList_iff.mpr (Vector.getElem_mem v.isLt)
      exact h c (List.mem_cons_of_mem _ (List.mem_append_left _
        (List.mem_flatMap.mpr ⟨.const c, hnode, List.mem_singleton_self c⟩)))
  propagate arc harc := by
    intro a ha
    refine hP.propagate (fun c hc => h c ?_) ha
    exact List.mem_cons_of_mem _ (List.mem_append_right _ (List.mem_flatMap.mpr ⟨arc, harc, hc⟩))

theorem closed_isOver {α : Type u} [Ordered α] {n : Nat}
    (g : Graph n (AtomicTerm (FreeLattice α) ν) (Edge (FreeLattice α))) (top : FreeLattice α)
    {as : OrderedSet α} (h : ∀ e ∈ ingredients top g, e.IsOver as) :
    flow.Closed g top (FreeLattice.IsOver as) :=
  closed_of_ingredients (isSublattice_isOver as) g top h

theorem outcome_settled [ChainBound γ] [DecidableEq γ] [DecidableEq ν] [LawfulHeyting γ]
    [LawfulChainBound γ] {ρ : Type w} (s : ConstraintSystem γ ν ρ) : s.outcome.settled = true := by
  obtain ⟨P, rank, hingredients, hP, hrank⟩ :=
    LawfulChainBound.exists_rank (ingredients s.bounds.top s.graph)
  exact FlowFunctions.solveAlong_settled flow_isMonotone
    (closed_of_ingredients hP s.graph s.bounds.top hingredients) hrank
    s.graph.components_isLayering

end ConstraintSystem

end LabelInference
