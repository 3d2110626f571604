import LabelInference.Dataflow.Fixpoint

namespace LabelInference

-- A natural number below a ceiling. A flow takes the least.
structure Level where
  rank : Nat
  deriving DecidableEq

namespace Level

instance : Meet Level := ⟨fun a b => ⟨min a.rank b.rank⟩⟩

-- Each step down loses a rank.
instance : ChainBound Level := ⟨fun ls => ls.foldl (fun rank l => max rank l.rank) 0⟩

-- What an arc does to a level on its way.
inductive Passage where
  | unchanged
  | lowered (amount : Nat)
  | capped (bound : Nat)

-- The ceiling itself is not lowered.
def Passage.apply (ceiling : Level) : Passage → Level → Level
  | .unchanged, l => l
  | .lowered amount, l => if l = ceiling then l else ⟨l.rank - amount⟩
  | .capped bound, l => ⟨min l.rank bound⟩

-- A node either has a level of its own or takes on what reaches it.
def flow (ceiling : Level) : Dataflow.FlowFunctions (Option Level) Passage Level where
  transfer node input := node.getD input
  propagate := Passage.apply ceiling

end Level

end LabelInference
