import LabelInference.Lattice

namespace LabelInference

universe u

-- What bounds the lower unknown of a constraint, by which constants stand beside the two unknowns.
inductive Edge (γ : Type u) where
  | identity
  | imply (antecedent : γ)
  | join (constant : γ)
  | implyThenJoin (antecedent constant : γ)
  deriving DecidableEq

namespace Edge

variable {γ : Type u}

-- A constant met on the left becomes an antecedent, one joined on the right is joined first.
def compose : (antecedent constant : Option γ) → Edge γ
  | none, none => .identity
  | some a, none => .imply a
  | none, some c => .join c
  | some a, some c => .implyThenJoin a c

def propagate [Join γ] [Imply γ] : Edge γ → γ → γ
  | .identity, x => x
  | .imply a, x => LabelInference.imply a x
  | .join c, x => LabelInference.join c x
  | .implyThenJoin a c, x => LabelInference.imply a (LabelInference.join c x)

def isIdentity : Edge γ → Bool
  | .identity => true
  | _ => false

def antecedent? : Edge γ → Option γ
  | .imply a | .implyThenJoin a _ => some a
  | _ => none

def constant? : Edge γ → Option γ
  | .join c | .implyThenJoin _ c => some c
  | _ => none

def constants (e : Edge γ) : List γ :=
  e.antecedent?.toList ++ e.constant?.toList

def text [ToString γ] : Edge γ → String
  | .identity => ""
  | .imply a => toString a ++ " → _"
  | .join c => toString c ++ " ∨ _"
  | .implyThenJoin a c => toString a ++ " → (" ++ toString c ++ " ∨ _)"

end Edge

end LabelInference
