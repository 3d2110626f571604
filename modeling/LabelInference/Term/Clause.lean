import LabelInference.Term.Basic

namespace LabelInference

universe u v

-- At most one constant together with at most one unknown.
structure Clause (γ : Type u) (ν : Type v) where
  constant : Option γ
  unknown : Option ν
  deriving DecidableEq

namespace Clause

variable {γ : Type u} {ν : Type v}

def ofConst (c : γ) : Clause γ ν := ⟨some c, none⟩

def ofVar (x : ν) : Clause γ ν := ⟨none, some x⟩

-- The node of a clause is its unknown, else its constant.
def node? : Clause γ ν → Option (AtomicTerm γ ν)
  | ⟨_, some x⟩ => some (.var x)
  | ⟨some c, none⟩ => some (.const c)
  | ⟨none, none⟩ => none

-- The constant that stands beside an unknown.
def besideUnknown : Clause γ ν → Option γ
  | ⟨c, some _⟩ => c
  | ⟨_, none⟩ => none

def mergeConstants (op : γ → γ → γ) : Option γ → Option γ → Option γ
  | some c, some d => some (op c d)
  | some c, none => some c
  | none, d => d

def mergeUnknowns [DecidableEq ν] : Option ν → Option ν → Except (ν × ν) (Option ν)
  | some x, some y => if x = y then .ok (some x) else .error (x, y)
  | some x, none => .ok (some x)
  | none, y => .ok y

variable [DecidableEq ν]

-- Fails with the two unknowns that clash.
def combine (op : γ → γ → γ) (a b : Clause γ ν) : Except (ν × ν) (Clause γ ν) :=
  (mergeUnknowns a.unknown b.unknown).map fun unknown =>
    ⟨mergeConstants op a.constant b.constant, unknown⟩

-- All combinations, those of the first clause of `as` first.
def product (op : γ → γ → γ) (as bs : List (Clause γ ν)) : Except (ν × ν) (List (Clause γ ν)) :=
  (as.flatMap fun a => bs.map (combine op a)).mapM id

variable [Join γ] [Meet γ]

def joinOfMeets : Term γ ν → Except (ν × ν) (List (Clause γ ν))
  | .const c => .ok [ofConst c]
  | .var x => .ok [ofVar x]
  | .join s t => do
    let as ← joinOfMeets s
    let bs ← joinOfMeets t
    return as ++ bs
  | .meet s t => do
    let as ← joinOfMeets s
    let bs ← joinOfMeets t
    product meet as bs

def meetOfJoins : Term γ ν → Except (ν × ν) (List (Clause γ ν))
  | .const c => .ok [ofConst c]
  | .var x => .ok [ofVar x]
  | .join s t => do
    let as ← meetOfJoins s
    let bs ← meetOfJoins t
    product join as bs
  | .meet s t => do
    let as ← meetOfJoins s
    let bs ← meetOfJoins t
    return as ++ bs

end Clause

end LabelInference
