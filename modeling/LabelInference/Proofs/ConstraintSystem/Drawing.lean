import LabelInference.FreeLattice.Text
import LabelInference.Proofs.ConstraintSystem.Construction
import LabelInference.Proofs.Dot.RoundTrip
import Mathlib.Computability.Primrec.List
import Mathlib.Data.Fin.Tuple.Take
import Mathlib.Data.List.Permutation

-- The imported Mathlib modules have the equations of `List.lookup`, `Fin.cast` and `Prod.snd` by which `cbv` evaluates a run.

namespace LabelInference.ConstraintSystem

universe u v w

variable {γ : Type u} {ν : Type v} {ρ : Type w}

section Readable

variable [ToString γ]

theorem isReadable_nodeStatement [ToString ν] (index : Nat) (value : γ) (t : AtomicTerm γ ν) :
    (nodeStatement index value t).IsReadable := by
  cases t with
  | var x => exact ⟨List.cons_ne_nil _ _, fun _ h => absurd h List.not_mem_nil⟩
  | const c =>
    have hstyle : ∀ entry ∈ [("color", "gray"), ("style", "filled")],
        Dot.IsWord entry.1.toList ∧ Dot.IsWord entry.2.toList := by decide
    exact ⟨List.cons_ne_nil _ _, hstyle⟩

theorem isReadable_arcStatement [Join γ] [Meet γ] [Imply γ] [DecidableEq ν] {n : Nat}
    (s : ConstraintSystem γ ν ρ) (values : Vector γ n) (arc : Dataflow.Arc n (Edge γ)) :
    (s.arcStatement values arc).IsReadable := by
  have hkey : Dot.IsWord "color".toList := by decide
  have hcolor : Dot.IsWord (s.arcColor values arc).toList := by
    unfold arcColor
    split
    · decide
    · split <;> decide
  exact ⟨List.cons_ne_nil _ _, List.forall_mem_singleton.mpr ⟨hkey, hcolor⟩⟩

end Readable

variable [Join γ] [Meet γ] [Imply γ] [ChainBound γ] [DecidableEq γ] [DecidableEq ν]
variable {s : ConstraintSystem γ ν ρ}

-- The value at a node of an unknown is the one that the candidate has for it.
theorem get_values_eq_candidate {i : Fin s.nodes.length} {x : ν}
    (h : s.graph.nodes.get i = .var x) : s.outcome.values.get i = s.candidate.get x := by
  have hplace := idxOf?_eq_some_iff_idxOf.mp (node?_get_nodes i)
  rw [h] at hplace
  have hindex : s.index (.var x) hplace.1 = i := Fin.ext hplace.2
  rw [get_candidate_of_mem hplace.1, hindex]

variable [ToString γ] [ToString ν]

-- The statements about the nodes, which come first.
def nodeStatements (s : ConstraintSystem γ ν ρ) : List Dot.Statement :=
  (s.nodes.zip s.outcome.values.toList).mapIdx fun index (term, value) => nodeStatement index value term

theorem length_nodeStatements : s.nodeStatements.length = s.nodes.length := by
  simp [nodeStatements]

theorem getElem?_nodeStatements (i : Fin s.nodes.length) : s.nodeStatements[i.val]? =
    some (nodeStatement i.val (s.outcome.values.get i) (s.graph.nodes.get i)) := by
  have hnode : s.nodes[i.val]? = some (s.graph.nodes.get i) := List.getElem?_eq_getElem i.isLt
  have hvalue : s.outcome.values.toList[i.val]? = some (s.outcome.values.get i) := by
    rw [Vector.getElem?_toList, Vector.getElem?_eq_getElem i.isLt]
    rfl
  have hpair : (s.nodes.zip s.outcome.values.toList)[i.val]? =
      some (s.graph.nodes.get i, s.outcome.values.get i) :=
    List.getElem?_zip_eq_some.mpr ⟨hnode, hvalue⟩
  rw [nodeStatements, List.getElem?_mapIdx, hpair]
  rfl

theorem isReadable_of_mem_statements {st : Dot.Statement} (h : st ∈ s.statements) :
    st.IsReadable := by
  rcases List.mem_append.mp h with hnode | harc
  · obtain ⟨i, _, rfl⟩ := List.mem_mapIdx.mp hnode
    exact isReadable_nodeStatement _ _ _
  · obtain ⟨arc, _, rfl⟩ := List.mem_map.mp harc
    exact isReadable_arcStatement _ _ _

-- The drawing has one statement for each node, in their order, and after them one for each arc in the
-- order in which the arcs were added. An unknown is drawn with its name above its value.
theorem read_dot (s : ConstraintSystem γ ν ρ) :
    ∃ nodes arrows : List Dot.Statement,
      Dot.read s.dot = some (nodes ++ arrows) ∧
      nodes.length = s.nodes.length ∧ arrows.length = s.graph.arcs.length ∧
      (∀ (i : Fin s.nodes.length) (x : ν), s.graph.nodes.get i = .var x →
        nodes[i.val]? = some ⟨.node i.val, [toString x, toString (s.candidate.get x)], []⟩) ∧
      (∀ (i : Fin s.nodes.length) (c : γ), s.graph.nodes.get i = .const c →
        nodes[i.val]? = some ⟨.node i.val, [toString c], [("color", "gray"), ("style", "filled")]⟩) ∧
      ∀ (j : Nat) (arc : Dataflow.Arc s.nodes.length (Edge γ)), s.graph.arcs[j]? = some arc →
        arrows[j]? = some ⟨.arrow arc.source.val arc.target.val, [arc.label.text],
          [("color", s.arcColor s.outcome.values arc)]⟩ := by
  refine ⟨s.nodeStatements, s.graph.arcs.map (s.arcStatement s.outcome.values),
    Dot.read_drawing fun st => isReadable_of_mem_statements, length_nodeStatements,
    List.length_map _, fun i x hi => ?_, fun i c hi => ?_, fun j arc harc => ?_⟩
  · rw [getElem?_nodeStatements, hi, get_values_eq_candidate hi]
    rfl
  · rw [getElem?_nodeStatements, hi]
    rfl
  · rw [List.getElem?_map, harc]
    rfl

-- A name that ends the string, the brackets and the line, and begins a statement of its own.
theorem read_dot_crafted_name :
    let name := "x\\\" ]\n    1 -> 0 [ label = \""
    let s : ConstraintSystem (FreeLattice Int) String Unit :=
      { constraints := [⟨.const (.atom 0), .var name, fun _ _ => (),
          [⟨.const (.atom 0), .identity, .var name⟩], rfl⟩]
        bounds := FreeLattice.bounds
        order := isBelow }
    ∃ nodes arrows : List Dot.Statement,
      Dot.read s.dot = some (nodes ++ arrows) ∧ nodes.length = 2 ∧ arrows.length = 1 ∧
        nodes[0]? = some ⟨.node 0, ["0"], [("color", "gray"), ("style", "filled")]⟩ ∧
        nodes[1]? = some ⟨.node 1, [name, "⊤"], []⟩ ∧
        arrows[0]? = some ⟨.arrow 1 0, [""], [("color", "black")]⟩ := by
  intro name s
  obtain ⟨nodes, arrows, hread, hnodes, harrows, hvar, hconst, harc⟩ := read_dot s
  let arc : Dataflow.Arc s.nodes.length (Edge (FreeLattice Int)) :=
    ⟨⟨1, by decide⟩, ⟨0, by decide⟩, .identity⟩
  have htext : toString (FreeLattice.atom (0 : Int)) = "0" := by cbv
  have hvalue : toString (s.candidate.get name) = "⊤" := by cbv
  have hcolor : s.arcColor s.outcome.values arc = "black" := by cbv
  have hfirst := hconst arc.target (.atom 0) rfl
  have hsecond := hvar arc.source name rfl
  have harrow := harc 0 arc rfl
  rw [htext] at hfirst
  rw [hvalue] at hsecond
  rw [hcolor] at harrow
  exact ⟨nodes, arrows, hread, hnodes, harrows, hfirst, hsecond, harrow⟩

end LabelInference.ConstraintSystem
