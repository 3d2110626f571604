import LabelInference.Lattice

namespace LabelInference

universe u v

inductive Term (γ : Type u) (ν : Type v) where
  | const (c : γ)
  | var (x : ν)
  | join (s t : Term γ ν)
  | meet (s t : Term γ ν)
  deriving DecidableEq

inductive AtomicTerm (γ : Type u) (ν : Type v) where
  | const (c : γ)
  | var (x : ν)
  deriving DecidableEq

namespace Term

variable {γ : Type u} {ν : Type v}

instance : Join (Term γ ν) := ⟨.join⟩

instance : Meet (Term γ ν) := ⟨.meet⟩

def bounds (b : Bounds γ) : Bounds (Term γ ν) := ⟨.const b.top, .const b.bottom⟩

def joinConstant (t : Term γ ν) (c : γ) : Term γ ν := t.join (.const c)

def joinVariable (t : Term γ ν) (x : ν) : Term γ ν := t.join (.var x)

def meetConstant (t : Term γ ν) (c : γ) : Term γ ν := t.meet (.const c)

def meetVariable (t : Term γ ν) (x : ν) : Term γ ν := t.meet (.var x)

-- The unknowns from left to right, once for each time they occur.
def unknowns : Term γ ν → List ν
  | .const _ => []
  | .var x => [x]
  | .join s t | .meet s t => s.unknowns ++ t.unknowns

def constants : Term γ ν → List γ
  | .const c => [c]
  | .var _ => []
  | .join s t | .meet s t => s.constants ++ t.constants

def eval [Join γ] [Meet γ] (value : ν → γ) : Term γ ν → γ
  | .const c => c
  | .var x => value x
  | .join s t => LabelInference.join (s.eval value) (t.eval value)
  | .meet s t => LabelInference.meet (s.eval value) (t.eval value)

def text [ToString γ] [ToString ν] : Term γ ν → String
  | .const c => toString c
  | .var x => toString x
  | .join s t => "(" ++ s.text ++ " ⊔ " ++ t.text ++ ")"
  | .meet s t => "(" ++ s.text ++ " ⊓ " ++ t.text ++ ")"

instance [ToString γ] [ToString ν] : ToString (Term γ ν) := ⟨text⟩

end Term

namespace AtomicTerm

variable {γ : Type u} {ν : Type v}

def toTerm : AtomicTerm γ ν → Term γ ν
  | .const c => .const c
  | .var x => .var x

-- A constant keeps its value, an unknown takes on what is known of it.
def transfer : AtomicTerm γ ν → γ → γ
  | .const c, _ => c
  | .var _, x => x

def text [ToString γ] [ToString ν] : AtomicTerm γ ν → String
  | .const c => toString c
  | .var x => toString x

instance [ToString γ] [ToString ν] : ToString (AtomicTerm γ ν) := ⟨text⟩

end AtomicTerm

end LabelInference
