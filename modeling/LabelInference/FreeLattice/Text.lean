import LabelInference.FreeLattice.Basic

namespace LabelInference.FreeLattice

universe u

variable {α : Type u} [Ordered α] [ToString α]

-- Operands are sorted by their text, and parentheses stand around two or more of them only.
def operatorText (operator : String) (operands : List String) : String :=
  match operands.mergeSort with
  | [operand] => operand
  | operands => "(" ++ operator.intercalate operands ++ ")"

def meetText (m : OrderedSet α) : String :=
  operatorText " ∧ " (m.toList.map toString)

def text (a : FreeLattice α) : String :=
  if a.isTop then "⊤"
  else if a.isBottom then "⊥"
  else operatorText " ∨ " (a.meets.toList.map meetText)

instance : ToString (FreeLattice α) := ⟨text⟩

end LabelInference.FreeLattice
