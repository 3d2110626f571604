namespace LabelInference

universe u

class Join (α : Type u) where
  join : α → α → α

class Meet (α : Type u) where
  meet : α → α → α

-- `imply a b` is meant to be the greatest `x` whose meet with `a` is below `b`.
class Imply (α : Type u) where
  imply : α → α → α

export Join (join)
export Meet (meet)
export Imply (imply)

-- A caller may start from less than the greatest element, so the bounds are handed to the analysis.
structure Bounds (α : Type u) where
  top : α
  bottom : α
  deriving DecidableEq

-- How often a value can be lowered strictly while it is built from the given elements and the
-- bounds by the lattice operations.
class ChainBound (α : Type u) where
  chainBound : List α → Nat

export ChainBound (chainBound)

-- The order that the meet induces.
def isBelow {α : Type u} [Meet α] [DecidableEq α] (a b : α) : Bool :=
  meet a b = a

end LabelInference
