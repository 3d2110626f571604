import LabelInference.ConstraintSystem.Basic
import LabelInference.Label.Basic

namespace LabelInference

universe u v w

-- An unknown of one component. The two halves of a system share none, even though they live in one graph.
inductive ComponentVariable (ν : Type v) where
  | confidentiality (base : ν)
  | integrity (base : ν)
  deriving DecidableEq

namespace ComponentVariable

variable {ν : Type v}

def base : ComponentVariable ν → ν
  | .confidentiality x | .integrity x => x

def text [ToString ν] : ComponentVariable ν → String
  | .confidentiality x => toString x ++ "→"
  | .integrity x => toString x ++ "←"

instance [ToString ν] : ToString (ComponentVariable ν) := ⟨text⟩

end ComponentVariable

abbrev LabelTerm (γ : Type u) (ν : Type v) := Label (Term γ (ComponentVariable ν))

abbrev LabelConstraint (γ : Type u) (ν : Type v) (ρ : Type w) [Join γ] [Meet γ] [DecidableEq ν] :=
  Constraint γ (ComponentVariable ν) ρ

abbrev LabelSystem (γ : Type u) (ν : Type v) (ρ : Type w) [Join γ] [Meet γ] [DecidableEq ν] :=
  ConstraintSystem γ (ComponentVariable ν) ρ

namespace LabelTerm

variable {γ : Type u} {ν : Type v} {ρ : Type w}

def ofLabel (l : Label γ) : LabelTerm γ ν := ⟨.const l.confidentiality, .const l.integrity⟩

def ofVariable (x : ν) : LabelTerm γ ν := ⟨.var (.confidentiality x), .var (.integrity x)⟩

variable [Join γ] [Meet γ] [DecidableEq ν]

-- The reports are made from the projections of the source and the sink, in this order.
def confidentialityFlow (b : Bounds γ) (source sink : LabelTerm γ ν)
    (report : Label γ → Label γ → ρ) :
    Except (UnsupportedTerm γ (ComponentVariable ν)) (LabelConstraint γ ν ρ) :=
  Constraint.below sink.confidentiality source.confidentiality fun sinkValue sourceValue =>
    report ((Label.uniform sourceValue).confidentialityOnly b)
      ((Label.uniform sinkValue).confidentialityOnly b)

def integrityFlow (b : Bounds γ) (source sink : LabelTerm γ ν) (report : Label γ → Label γ → ρ) :
    Except (UnsupportedTerm γ (ComponentVariable ν)) (LabelConstraint γ ν ρ) :=
  Constraint.below source.integrity sink.integrity fun sourceValue sinkValue =>
    report ((Label.uniform sourceValue).integrityOnly b) ((Label.uniform sinkValue).integrityOnly b)

def flow (b : Bounds γ) (source sink : LabelTerm γ ν) (report : Label γ → Label γ → ρ) :
    Except (UnsupportedTerm γ (ComponentVariable ν)) (List (LabelConstraint γ ν ρ)) := do
  let confidentiality ← confidentialityFlow b source sink report
  let integrity ← integrityFlow b source sink report
  return [confidentiality, integrity]

end LabelTerm

structure LabelSolution (γ : Type u) (ν : Type v) where
  components : Solution γ (ComponentVariable ν)

namespace LabelSolution

variable {γ : Type u} {ν : Type v} [DecidableEq ν]

-- A component that no constraint mentions is weakest.
def get (s : LabelSolution γ ν) (x : ν) : Label γ :=
  ⟨s.components.get (.confidentiality x), s.components.get (.integrity x)⟩

def eval [Join γ] [Meet γ] (s : LabelSolution γ ν) (t : LabelTerm γ ν) : Label γ :=
  ⟨s.components.eval t.confidentiality, s.components.eval t.integrity⟩

-- The unknown labels of which some component was solved for, in the order of first mention.
def unknowns (s : LabelSolution γ ν) : List ν :=
  (s.components.values.map fun entry => entry.1.base).eraseDups

end LabelSolution

namespace LabelSystem

variable {γ : Type u} {ν : Type v} {ρ : Type w}
variable [Join γ] [Meet γ] [Imply γ] [ChainBound γ] [DecidableEq γ] [DecidableEq ν]

def labelCandidate (s : LabelSystem γ ν ρ) : LabelSolution γ ν :=
  ⟨s.candidate⟩

def labelSolution (s : LabelSystem γ ν ρ) : Except ρ (LabelSolution γ ν) :=
  s.solution.map LabelSolution.mk

end LabelSystem

end LabelInference
