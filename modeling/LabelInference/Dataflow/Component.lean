import LabelInference.Dataflow.Graph
import LabelInference.Dataflow.Search

namespace LabelInference.Dataflow

universe u v

-- The place of each node in a list of all nodes.
def ranks {n : Nat} (order : List (Fin n)) : Vector Nat n :=
  order.zipIdx.foldl (fun places (v, place) => places.set v.val place v.isLt) (.replicate n 0)

namespace Graph

variable {n : Nat} {ν : Type u} {ε : Type v}

-- Backwards through the order of a search, a component is met before those it leads to, and a search against
-- the arcs from its first node finds that component and nothing new beside it. Each component lists its
-- members in the order in which the forward search leaves them.
def components (g : Graph n ν ε) : List (List (Fin n)) :=
  let order := searchOrder g.successors
  let rank := ranks order
  (searches g.predecessors (.replicate n false) order.reverse).map fun members =>
    members.mergeSort fun u v => rank.get u ≤ rank.get v

end Graph

end LabelInference.Dataflow
