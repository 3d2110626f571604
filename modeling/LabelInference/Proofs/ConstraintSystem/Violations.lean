import LabelInference.ConstraintSystem.Dot
import LabelInference.FreeLattice.Text
import LabelInference.Proofs.ConstraintSystem.Solution
import LabelInference.Proofs.FreeLattice.TrustOrder
import Mathlib.Computability.Primrec.List
import Mathlib.Data.Fin.Tuple.Take
import Mathlib.Data.List.Permutation

-- The imported Mathlib modules have the equations of `List.lookup`, `Fin.cast` and `Prod.snd` by which `cbv` evaluates a run.

namespace LabelInference

universe u v w

section Antecedent

variable {γ : Type u} {ν : Type v} [Join γ]

end Antecedent

namespace ConstraintSystem

section Arcs

variable {γ : Type u} {ν : Type v} {ρ : Type w} [Join γ] [Meet γ] [DecidableEq γ] [DecidableEq ν]

end Arcs

section Candidate

variable {γ : Type u} {ν : Type v} {ρ : Type w}
variable [Join γ] [Meet γ] [Imply γ] [ChainBound γ] [DecidableEq γ] [DecidableEq ν]
variable {s : ConstraintSystem γ ν ρ}

variable [LawfulHeyting γ] {R : γ → γ → Prop} {r : AtomicConstraint γ ν}

variable (hR : IsCoarsening fun a b => s.order a b = true) (hs : s.outcome.settled = true)
include hR hs

end Candidate

section Drawing

variable {γ : Type u} {ν : Type v} {ρ : Type w} [ToString γ]

variable [Join γ] [Meet γ] [Imply γ] [DecidableEq ν] {s : ConstraintSystem γ ν ρ}

variable [ChainBound γ] [DecidableEq γ] [ToString ν]

end Drawing

variable {α : Type u} [Ordered α] [ToString α] {ν : Type v} [DecidableEq ν] [ToString ν] {ρ : Type w}

end ConstraintSystem

end LabelInference
