import LabelInference.Dataflow.Fixpoint
import LabelInference.Proofs.Dataflow.Search
import LabelInference.Proofs.Lattice.Laws

namespace LabelInference.Dataflow

universe u v w

theorem Graph.mem_successors_iff_mem_predecessors {n : Nat} {ν : Type u} {ε : Type v}
    {g : Graph n ν ε} {u v : Fin n} : v ∈ g.successors u ↔ u ∈ g.predecessors v := by
  rw [mem_successors, mem_predecessors]

-- The meet of a list below a given top is its greatest lower bound, in every order in which the meet
-- of two is.
theorem rel_foldl_meet_iff {α : Type w} {β : Type u} [Meet α] {R : α → α → Prop}
    (hR : ∀ {a b c}, R a (meet b c) ↔ R a b ∧ R a c) {value : β → α} {bs : List β} {a top : α} :
    R a (bs.foldl (fun acc b => meet acc (value b)) top) ↔ R a top ∧ ∀ b ∈ bs, R a (value b) := by
  induction bs generalizing top with
  | nil => simp
  | cons b bs ih => rw [List.foldl_cons, ih, hR, List.forall_mem_cons, and_assoc]

theorem below_foldl_meet_iff {α : Type w} {β : Type u} [Meet α] [LawfulMeet α] {value : β → α}
    {bs : List β} {a top : α} :
    Below a (bs.foldl (fun acc b => meet acc (value b)) top) ↔
      Below a top ∧ ∀ b ∈ bs, Below a (value b) :=
  rel_foldl_meet_iff (R := Below) below_meet_iff

namespace FlowFunctions

variable {n : Nat} {ν : Type u} {ε : Type v} {α : Type w}

theorem get_initial {f : FlowFunctions ν ε α} {g : Graph n ν ε} {top : α} (v : Fin n) :
    (f.initial g top).values.get v = f.transfer (g.nodes.get v) top := by
  change (g.nodes.map fun node => f.transfer node top)[v.val] = f.transfer g.nodes[v.val] top
  rw [Vector.getElem_map]

variable [Meet α]

structure IsMonotone (f : FlowFunctions ν ε α) : Prop where
  transfer : ∀ node {a b}, Below a b → Below (f.transfer node a) (f.transfer node b)
  propagate : ∀ label {a b}, Below a b → Below (f.propagate label a) (f.propagate label b)

variable {f : FlowFunctions ν ε α} {g : Graph n ν ε} {top : α}

theorem image_congr {x y : Fin n → α} {v : Fin n} (h : ∀ u ∈ g.predecessors v, x u = y u) :
    f.image g top x v = f.image g top y v := by
  unfold image
  congr 1
  refine List.foldl_ext _ _ _ fun acc arc harc => ?_
  rw [h arc.source (List.mem_map_of_mem harc)]

variable [LawfulMeet α]

theorem image_mono (hf : f.IsMonotone) {x y : Fin n → α} (h : ∀ u, Below (x u) (y u)) (v : Fin n) :
    Below (f.image g top x v) (f.image g top y v) := by
  refine hf.transfer _ (below_foldl_meet_iff.mpr ?_)
  have hx := below_foldl_meet_iff.mp (Below.refl <| (g.incoming v).foldl
    (fun acc arc => meet acc (f.propagate arc.label (x arc.source))) top)
  exact ⟨hx.1, fun arc harc => (hx.2 arc harc).trans (hf.propagate _ (h arc.source))⟩

theorem image_below_transfer_top (hf : f.IsMonotone) (x : Fin n → α) (v : Fin n) :
    Below (f.image g top x v) (f.transfer (g.nodes.get v) top) := by
  refine hf.transfer _ ?_
  exact (below_foldl_meet_iff.mp (Below.refl _)).1

-- Values from which every equation only leads down.
def Descending (f : FlowFunctions ν ε α) (g : Graph n ν ε) (top : α) (values : Vector α n) : Prop :=
  ∀ v, Below (f.image g top values.get v) (values.get v)

theorem Descending.initial (hf : f.IsMonotone) : f.Descending g top (f.initial g top).values := by
  intro v
  rw [get_initial]
  exact image_below_transfer_top hf _ v

theorem Descending.set_below {values : Vector α n} (h : f.Descending g top values) (v u : Fin n) :
    Below ((values.set v.val (f.image g top values.get v) v.isLt).get u) (values.get u) :=
  forall_get_set (P := fun u a => Below a (values.get u)) (fun _ => Below.refl _) (h v) u

theorem Descending.set (hf : f.IsMonotone) {values : Vector α n} (h : f.Descending g top values)
    (v : Fin n) :
    f.Descending g top (values.set v.val (f.image g top values.get v) v.isLt) := by
  have himage : ∀ u, Below (f.image g top
      (values.set v.val (f.image g top values.get v) v.isLt).get u) (f.image g top values.get u) :=
    image_mono hf (h.set_below v)
  exact forall_get_set (P := fun u => Below (f.image g top _ u))
    (fun u => (himage u).trans (h u)) (himage v)

end FlowFunctions

end LabelInference.Dataflow
