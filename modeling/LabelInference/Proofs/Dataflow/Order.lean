import LabelInference.Proofs.Dataflow.Fixpoint
import Mathlib.Data.Fin.Tuple.Take
import Mathlib.Data.List.Permutation

-- The imported Mathlib modules have the equations of `Fin.cast` and `Prod.snd` by which `cbv` evaluates a run.

namespace LabelInference.Dataflow

universe u v w

namespace FlowFunctions

variable {n : Nat} {ν : Type u} {ε : Type v} {α : Type w} [Meet α]

-- Every value is the transfer of the meet, taken from the top on and in the order of the arcs into the
-- node, of what these arcs propagate.
def Solves (f : FlowFunctions ν ε α) (g : Graph n ν ε) (top : α) (values : Fin n → α) : Prop :=
  ∀ v, values v = f.transfer (g.nodes.get v) ((g.incoming v).foldl
    (fun acc arc => meet acc (f.propagate arc.label (values arc.source))) top)

variable [DecidableEq α] {f : FlowFunctions ν ε α} {g : Graph n ν ε} {top : α} {allowance : Nat}
  {cs : List (List (Fin n))}

theorem solves_solveAlong (hcs : g.IsLayering cs)
    (h : (f.solveAlong g top allowance cs).settled = true) :
    f.Solves g top (f.solveAlong g top allowance cs).values.get :=
  solveAlong_balanced hcs h

-- Whenever the solver returns, its values solve the equations, whatever the functions are.
theorem solves_of_settled (f : FlowFunctions ν ε α) (g : Graph n ν ε) (top : α) (allowance : Nat) :
    ((f.solve g top allowance).settled = true →
        f.Solves g top (f.solve g top allowance).values.get) ∧
      ∀ cs, g.IsLayering cs → (f.solveAlong g top allowance cs).settled = true →
        f.Solves g top (f.solveAlong g top allowance cs).values.get := by
  refine ⟨fun h => ?_, fun cs hcs h => solves_solveAlong hcs h⟩
  rw [solve_eq_solveAlong] at h ⊢
  exact solves_solveAlong g.components_isLayering h

-- A cycle of two nodes with a loop and parallel arcs. The higher a value, the lower what an arc makes of
-- it.
theorem solves_of_settled_antitone_cycle :
    let f : FlowFunctions (Option Level) Nat Level :=
      ⟨fun node input => node.getD input, fun bound l => ⟨bound - l.rank⟩⟩
    let g : Graph 3 (Option Level) Nat :=
      .ofArcs #v[none, none, some ⟨4⟩]
        [⟨2, 0, 7⟩, ⟨0, 1, 5⟩, ⟨1, 0, 9⟩, ⟨0, 1, 8⟩, ⟨1, 1, 6⟩]
    let top : Level := ⟨9⟩
    let cs : List (List (Fin 3)) := [[2], [0, 1]]
    ((f.solve g top 20).settled = true ∧ f.Solves g top (f.solve g top 20).values.get) ∧
      g.IsLayering cs ∧ (f.solveAlong g top 20 cs).settled = true ∧
        f.Solves g top (f.solveAlong g top 20 cs).values.get := by
  intro f g top cs
  have hsolve : (f.solve g top 20).settled = true := by cbv
  have hcs : g.IsLayering cs :=
    { nodup := by decide
      covers := by decide
      forward := List.pairwise_pair.mpr ⟨by simp, by decide⟩ }
  have halong : (f.solveAlong g top 20 cs).settled = true := by cbv
  have hequations := solves_of_settled f g top 20
  exact ⟨⟨hsolve, hequations.1 hsolve⟩, hcs, halong, hequations.2 cs hcs halong⟩

end FlowFunctions

end LabelInference.Dataflow
