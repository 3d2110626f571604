import LabelInference.Edge
import LabelInference.Term.Clause

namespace LabelInference

universe u v

-- `lower` is below `edge` of `upper`.
structure AtomicConstraint (γ : Type u) (ν : Type v) where
  lower : AtomicTerm γ ν
  edge : Edge γ
  upper : AtomicTerm γ ν
  deriving DecidableEq

-- Why a pair of terms cannot be reduced: the whole side, and the two unknowns that clash in it.
inductive UnsupportedTerm (γ : Type u) (ν : Type v) where
  | meetOfDistinctVariables (term : Term γ ν) (first second : ν)
  | joinOfDistinctVariables (term : Term γ ν) (first second : ν)
  deriving DecidableEq

def UnsupportedTerm.message {γ : Type u} {ν : Type v} [ToString γ] [ToString ν] :
    UnsupportedTerm γ ν → String
  | .meetOfDistinctVariables term first second =>
    "cannot meet distinct variables \x60" ++ toString first ++ "\x60 and \x60" ++ toString second ++
      "\x60 on the left of \x60" ++ term.text ++ "\x60"
  | .joinOfDistinctVariables term first second =>
    "cannot join distinct variables \x60" ++ toString first ++ "\x60 and \x60" ++ toString second ++
      "\x60 on the right of \x60" ++ term.text ++ "\x60"

namespace Term

variable {γ : Type u} {ν : Type v}

-- A clause without parts stands for no bound, so a pair with such a clause is left out.
def boundOf (below above : Clause γ ν) : Option (AtomicConstraint γ ν) := do
  let lower ← below.node?
  let upper ← above.node?
  return ⟨lower, .compose below.besideUnknown above.besideUnknown, upper⟩

variable [Join γ] [Meet γ] [DecidableEq ν]

def reduce (lower upper : Term γ ν) :
    Except (UnsupportedTerm γ ν) (List (AtomicConstraint γ ν)) :=
  match Clause.joinOfMeets lower, Clause.meetOfJoins upper with
  | .error (first, second), _ => .error (.meetOfDistinctVariables lower first second)
  | .ok _, .error (first, second) => .error (.joinOfDistinctVariables upper first second)
  | .ok below, .ok above => .ok (below.flatMap fun a => above.filterMap (boundOf a))

end Term

end LabelInference
