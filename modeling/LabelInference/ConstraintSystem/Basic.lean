import LabelInference.Constraint
import LabelInference.Dataflow.Fixpoint

namespace LabelInference

universe u v w

structure ConstraintSystem (γ : Type u) (ν : Type v) (ρ : Type w) [Join γ] [Meet γ] [DecidableEq ν] where
  constraints : List (Constraint γ ν ρ)
  bounds : Bounds γ
  order : γ → γ → Bool

namespace ConstraintSystem

section Graph

variable {γ : Type u} {ν : Type v} {ρ : Type w}
variable [Join γ] [Meet γ] [DecidableEq γ] [DecidableEq ν]

def reduced (s : ConstraintSystem γ ν ρ) : List (AtomicConstraint γ ν) :=
  s.constraints.flatMap (·.reduced)

-- Each atomic term once, in the order of first mention, the lower side of a constraint first.
def nodes (s : ConstraintSystem γ ν ρ) : List (AtomicTerm γ ν) :=
  (s.reduced.flatMap fun r => [r.lower, r.upper]).eraseDups

-- A constraint leads from its upper to its lower side.
def links (s : ConstraintSystem γ ν ρ) : List (AtomicTerm γ ν × Edge γ × AtomicTerm γ ν) :=
  s.reduced.map fun r => (r.upper, r.edge, r.lower)

theorem mem_nodes_of_mem_links (s : ConstraintSystem γ ν ρ) :
    ∀ link ∈ s.links, link.1 ∈ s.nodes ∧ link.2.2 ∈ s.nodes := by
  intro link h
  obtain ⟨r, hr, rfl⟩ := List.mem_map.mp h
  constructor
  · exact List.mem_eraseDups.mpr (List.mem_flatMap.mpr ⟨r, hr, by simp⟩)
  · exact List.mem_eraseDups.mpr (List.mem_flatMap.mpr ⟨r, hr, by simp⟩)

def graph (s : ConstraintSystem γ ν ρ) : Dataflow.Graph s.nodes.length (AtomicTerm γ ν) (Edge γ) :=
  .ofLinks s.nodes s.links s.mem_nodes_of_mem_links

def node? (s : ConstraintSystem γ ν ρ) (t : AtomicTerm γ ν) : Option Nat :=
  s.nodes.idxOf? t

end Graph

variable {γ : Type u} {ν : Type v} {ρ : Type w}
variable [Join γ] [Meet γ] [Imply γ] [ChainBound γ] [DecidableEq γ] [DecidableEq ν]

def flow : Dataflow.FlowFunctions (AtomicTerm γ ν) (Edge γ) γ := ⟨AtomicTerm.transfer, Edge.propagate⟩

-- All elements that values below `top` on a graph are built from.
def ingredients {n : Nat} (top : γ) (g : Dataflow.Graph n (AtomicTerm γ ν) (Edge γ)) : List γ :=
  top :: (g.nodes.toList.flatMap (·.toTerm.constants) ++ g.arcs.flatMap (·.label.constants))

def outcome (s : ConstraintSystem γ ν ρ) : Dataflow.Outcome γ s.nodes.length :=
  flow.solve s.graph s.bounds.top
    (Dataflow.allowance s.nodes.length (chainBound (ingredients s.bounds.top s.graph)))

-- The values of the unknowns among the nodes, in node order.
def candidate (s : ConstraintSystem γ ν ρ) : Solution γ ν where
  values := (s.nodes.zip s.outcome.values.toList).filterMap fun
    | (.var x, value) => some (x, value)
    | (.const _, _) => none
  top := s.bounds.top

def violationsUnder (s : ConstraintSystem γ ν ρ) (solution : Solution γ ν) : List ρ :=
  s.constraints.filterMap fun c =>
    let lower := solution.eval c.lower
    let upper := solution.eval c.upper
    if s.order lower upper then none else some (c.report lower upper)

def violations (s : ConstraintSystem γ ν ρ) : List ρ :=
  s.violationsUnder s.candidate

-- The candidate, or else the report of the first constraint that it violates.
def solution (s : ConstraintSystem γ ν ρ) : Except ρ (Solution γ ν) :=
  let candidate := s.candidate
  match s.violationsUnder candidate with
  | [] => .ok candidate
  | report :: _ => .error report

-- Whether the bound of an arc fails under the given values of the nodes.
def isViolated {n : Nat} (s : ConstraintSystem γ ν ρ) (values : Vector γ n) (arc : Dataflow.Arc n (Edge γ)) :
    Bool :=
  !s.order (values.get arc.target) (arc.label.propagate (values.get arc.source))

end ConstraintSystem

end LabelInference
