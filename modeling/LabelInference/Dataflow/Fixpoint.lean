import LabelInference.Dataflow.Component
import LabelInference.Lattice

namespace LabelInference.Dataflow

universe u v w

structure FlowFunctions (ν : Type u) (ε : Type v) (α : Type w) where
  transfer : ν → α → α
  propagate : ε → α → α

-- Nothing is assumed of the functions that would bound the visits, so there is an allowance for each
-- component. `settled` tells whether every queue was worked off.
structure Outcome (α : Type w) (n : Nat) where
  values : Vector α n
  components : Nat
  iterations : Nat
  settled : Bool

-- The state of the iteration over one component.
structure Progress (α : Type w) (n : Nat) where
  values : Vector α n
  waiting : List (Fin n)
  iterations : Nat

namespace FlowFunctions

variable {n : Nat} {ν : Type u} {ε : Type v} {α : Type w}

-- The right-hand side of a node's equation.
def image [Meet α] (f : FlowFunctions ν ε α) (g : Graph n ν ε) (top : α) (values : Fin n → α)
    (v : Fin n) : α :=
  f.transfer (g.nodes.get v) <|
    (g.incoming v).foldl (fun acc arc => meet acc (f.propagate arc.label (values arc.source))) top

-- Appends those nodes of the component that are not waiting already.
def enqueue (inside : Vector Bool n) (waiting successors : List (Fin n)) : List (Fin n) :=
  successors.foldl
    (fun waiting s => if inside.get s ∧ s ∉ waiting then waiting ++ [s] else waiting) waiting

variable [Meet α] [DecidableEq α] (f : FlowFunctions ν ε α) (g : Graph n ν ε) (top : α)

-- Brings the first waiting node up to date. A changed value makes its successors wait.
def visit (inside : Vector Bool n) (v : Fin n) (rest : List (Fin n)) (p : Progress α n) :
    Progress α n :=
  let value := f.image g top p.values.get v
  if value = p.values.get v then
    { p with waiting := rest, iterations := p.iterations + 1 }
  else
    { values := p.values.set v.val value v.isLt
      waiting := enqueue inside rest (g.successors v)
      iterations := p.iterations + 1 }

def settle (inside : Vector Bool n) : (allowance : Nat) → Progress α n → Progress α n
  | 0, p => p
  | allowance + 1, p =>
    match p.waiting with
    | [] => p
    | v :: rest => settle inside allowance (f.visit g top inside v rest p)

def initial : Outcome α n where
  values := g.nodes.map fun node => f.transfer node top
  components := 0
  iterations := 0
  settled := true

def solveComponent (allowance : Nat) (o : Outcome α n) (component : List (Fin n)) :
    Outcome α n :=
  let inside := mark (.replicate n false) component
  let p := f.settle g top inside allowance ⟨o.values, component, o.iterations⟩
  { values := p.values
    components := o.components + 1
    iterations := p.iterations
    settled := o.settled && p.waiting.isEmpty }

def solve (allowance : Nat) : Outcome α n :=
  g.components.foldl (f.solveComponent g top allowance) (f.initial g top)

def solution (allowance : Nat) : Vector α n :=
  (f.solve g top allowance).values

end FlowFunctions

-- Enough visits for one component of `n` nodes if no value is lowered more than `steps` times:
-- every node is visited once at first, and once more for each time a node before it is lowered.
def allowance (n steps : Nat) : Nat :=
  n + n * n * steps

end LabelInference.Dataflow
