import LabelInference.Term.Reduction

namespace LabelInference

universe u v w

variable {γ : Type u} {ν : Type v} {ρ : Type w} [Join γ] [Meet γ] [DecidableEq ν]

structure Constraint (γ : Type u) (ν : Type v) (ρ : Type w) [Join γ] [Meet γ] [DecidableEq ν] where
  lower : Term γ ν
  upper : Term γ ν
  report : γ → γ → ρ
  reduced : List (AtomicConstraint γ ν)
  reduces : Term.reduce lower upper = .ok reduced

def Constraint.below (lower upper : Term γ ν) (report : γ → γ → ρ) :
    Except (UnsupportedTerm γ ν) (Constraint γ ν ρ) :=
  match h : Term.reduce lower upper with
  | .ok reduced => .ok ⟨lower, upper, report, reduced, h⟩
  | .error e => .error e

-- Values of finitely many unknowns; all others have the top value.
structure Solution (γ : Type u) (ν : Type v) where
  values : List (ν × γ)
  top : γ

namespace Solution

def get (s : Solution γ ν) (x : ν) : γ :=
  (s.values.lookup x).getD s.top

def eval (s : Solution γ ν) (t : Term γ ν) : γ :=
  t.eval s.get

end Solution

end LabelInference
