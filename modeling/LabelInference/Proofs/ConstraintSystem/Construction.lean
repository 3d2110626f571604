import LabelInference.Proofs.ConstraintSystem.Graph
import LabelInference.Proofs.Numbering

namespace LabelInference

universe u v w

variable {γ : Type u} {ν : Type v} {ρ : Type w}

-- The sides of the constraints in the order in which the construction meets them.
def AtomicConstraint.mentions (rs : List (AtomicConstraint γ ν)) : List (AtomicTerm γ ν) :=
  rs.flatMap fun r => [r.lower, r.upper]

-- An arc leads from the first place to the second.
structure Construction (γ : Type u) (ν : Type v) where
  places : List (AtomicTerm γ ν × Nat)
  nodes : List (AtomicTerm γ ν)
  arcs : List (Nat × Nat × Edge γ)

namespace Construction

def empty : Construction γ ν := ⟨[], [], []⟩

variable [DecidableEq γ] [DecidableEq ν]

def place? (b : Construction γ ν) (t : AtomicTerm γ ν) : Option Nat :=
  b.places.lookup t

-- The place of a term, with a new node for it if it has none.
def addNode (b : Construction γ ν) (t : AtomicTerm γ ν) : Nat × Construction γ ν :=
  match b.place? t with
  | some place => (place, b)
  | none =>
    (b.nodes.length, { b with places := (t, b.nodes.length) :: b.places, nodes := b.nodes ++ [t] })

def addBound (b : Construction γ ν) (r : AtomicConstraint γ ν) : Construction γ ν :=
  let lower := b.addNode r.lower
  let upper := lower.2.addNode r.upper
  { upper.2 with arcs := upper.2.arcs ++ [(upper.1, lower.1, r.edge)] }

def ofConstraints [Join γ] [Meet γ] (cs : List (Constraint γ ν ρ)) : Construction γ ν :=
  cs.foldl (fun b c => c.reduced.foldl addBound b) empty

-- The nodes are what has been mentioned, once each, and the table has their places.
structure Numbers (b : Construction γ ν) (mentions : List (AtomicTerm γ ν)) : Prop where
  nodes : b.nodes = mentions.eraseDups
  place? : ∀ t, b.place? t = b.nodes.idxOf? t

-- The arc of a constraint, by the places that its sides have in a list of nodes.
def arcIn (nodes : List (AtomicTerm γ ν)) (r : AtomicConstraint γ ν) : Nat × Nat × Edge γ :=
  (nodes.idxOf r.upper, nodes.idxOf r.lower, r.edge)

-- What is built is the graph of the constraints met so far.
structure Builds (b : Construction γ ν) (rs : List (AtomicConstraint γ ν)) : Prop extends
    b.Numbers (AtomicConstraint.mentions rs) where
  arcs : b.arcs = rs.map (arcIn b.nodes)

variable {b : Construction γ ν} {mentions : List (AtomicTerm γ ν)} {rs : List (AtomicConstraint γ ν)}
  {t : AtomicTerm γ ν} {r : AtomicConstraint γ ν}

theorem Numbers.mem_nodes (h : b.Numbers mentions) : t ∈ b.nodes ↔ t ∈ mentions := by
  rw [h.nodes, List.mem_eraseDups]

-- A term with a place adds nothing, one without a place adds itself.
theorem Numbers.addNode_eq (h : b.Numbers mentions) (t : AtomicTerm γ ν) :
    b.addNode t = if t ∈ mentions then (b.nodes.idxOf t, b) else
      (b.nodes.length,
        { b with places := (t, b.nodes.length) :: b.places, nodes := b.nodes ++ [t] }) := by
  have hplace := h.place? t
  unfold addNode
  by_cases ht : t ∈ mentions
  · rw [idxOf?_eq_some_iff_idxOf.mpr ⟨h.mem_nodes.mpr ht, rfl⟩] at hplace
    simp only [hplace, if_pos ht]
  · rw [List.idxOf?_eq_none_iff.mpr (mt h.mem_nodes.mp ht)] at hplace
    simp only [hplace, if_neg ht]

theorem Numbers.addNode (h : b.Numbers mentions) (t : AtomicTerm γ ν) :
    (b.addNode t).2.Numbers (mentions ++ [t]) := by
  rw [h.addNode_eq]
  by_cases ht : t ∈ mentions
  · rw [if_pos ht]
    refine ⟨?_, h.place?⟩
    rw [eraseDups_concat, if_pos ht]
    exact h.nodes
  · rw [if_neg ht]
    refine ⟨?_, fun a => ?_⟩
    · rw [eraseDups_concat, if_neg ht, ← h.nodes]
    · have hold := h.place? a
      unfold Construction.place? at hold ⊢
      rw [idxOf?_concat (mt h.mem_nodes.mp ht), ← hold, List.lookup_cons]
      by_cases ha : a = t
      · simp [ha]
      · simp [ha, beq_false_of_ne ha]

theorem Numbers.addNode_place (h : b.Numbers mentions) (t : AtomicTerm γ ν) :
    (b.addNode t).1 = (b.addNode t).2.nodes.idxOf t := by
  rw [h.addNode_eq]
  by_cases ht : t ∈ mentions
  · rw [if_pos ht]
  · have hnew : t ∉ b.nodes := mt h.mem_nodes.mp ht
    rw [if_neg ht, List.idxOf_append_of_notMem hnew]
    simp

theorem arcs_addNode (b : Construction γ ν) (t : AtomicTerm γ ν) :
    (b.addNode t).2.arcs = b.arcs := by
  unfold addNode
  split <;> rfl

theorem arcs_addBound (b : Construction γ ν) (r : AtomicConstraint γ ν) :
    (b.addBound r).arcs =
      b.arcs ++ [(((b.addNode r.lower).2.addNode r.upper).1, (b.addNode r.lower).1, r.edge)] := by
  show ((b.addNode r.lower).2.addNode r.upper).2.arcs ++ _ = _
  rw [arcs_addNode, arcs_addNode]

-- What was mentioned before keeps its place.
theorem Numbers.idxOf_addNode (h : b.Numbers mentions) {a : AtomicTerm γ ν} (ha : a ∈ mentions)
    (t : AtomicTerm γ ν) : (b.addNode t).2.nodes.idxOf a = b.nodes.idxOf a := by
  rw [(h.addNode t).nodes, h.nodes, idxOf_eraseDups_concat ha]

omit [DecidableEq γ] [DecidableEq ν] in
theorem mentions_concat (rs : List (AtomicConstraint γ ν)) (r : AtomicConstraint γ ν) :
    AtomicConstraint.mentions (rs ++ [r]) = AtomicConstraint.mentions rs ++ [r.lower] ++ [r.upper] := by
  simp [AtomicConstraint.mentions]

omit [DecidableEq γ] [DecidableEq ν] in
theorem mem_mentions : t ∈ AtomicConstraint.mentions rs ↔ ∃ r ∈ rs, t = r.lower ∨ t = r.upper := by
  simp [AtomicConstraint.mentions]

-- The two sides get their places one after the other, and the second leaves the first where it is.
theorem Builds.addBound (h : b.Builds rs) (r : AtomicConstraint γ ν) :
    (b.addBound r).Builds (rs ++ [r]) := by
  have hlower := h.toNumbers.addNode r.lower
  have hupper := hlower.addNode r.upper
  rw [← mentions_concat] at hupper
  have hplace : (b.addNode r.lower).1 = (b.addBound r).nodes.idxOf r.lower := by
    have hkept := hlower.idxOf_addNode (List.mem_append_right _ (List.mem_singleton_self _)) r.upper
    exact (h.toNumbers.addNode_place r.lower).trans hkept.symm
  have hold : rs.map (arcIn b.nodes) = rs.map (arcIn (b.addBound r).nodes) := by
    have hkept : ∀ a ∈ AtomicConstraint.mentions rs,
        (b.addBound r).nodes.idxOf a = b.nodes.idxOf a := by
      intro a ha
      have hfirst := h.toNumbers.idxOf_addNode ha r.lower
      exact (hlower.idxOf_addNode (List.mem_append_left _ ha) r.upper).trans hfirst
    refine List.map_congr_left fun q hq => ?_
    unfold arcIn
    rw [hkept q.upper (mem_mentions.mpr ⟨q, hq, .inr rfl⟩),
      hkept q.lower (mem_mentions.mpr ⟨q, hq, .inl rfl⟩)]
  refine ⟨⟨hupper.nodes, hupper.place?⟩, ?_⟩
  calc (b.addBound r).arcs
      = b.arcs ++ [(((b.addNode r.lower).2.addNode r.upper).1, (b.addNode r.lower).1, r.edge)] := by
        rw [arcs_addBound]
    _ = rs.map (arcIn (b.addBound r).nodes) ++ [arcIn (b.addBound r).nodes r] := by
        rw [h.arcs, hold, hlower.addNode_place, hplace]
        rfl
    _ = (rs ++ [r]).map (arcIn (b.addBound r).nodes) := by
        rw [List.map_append, List.map_singleton]

theorem builds_empty : (empty : Construction γ ν).Builds [] where
  nodes := by simp [empty, AtomicConstraint.mentions]
  place? t := by simp [empty, Construction.place?]
  arcs := rfl

theorem Builds.foldl (h : b.Builds rs) (qs : List (AtomicConstraint γ ν)) :
    (qs.foldl Construction.addBound b).Builds (rs ++ qs) := by
  induction qs generalizing b rs with
  | nil => simpa using h
  | cons q qs ih => simpa using ih (h.addBound q)

theorem builds_ofConstraints [Join γ] [Meet γ] (cs : List (Constraint γ ν ρ)) :
    (ofConstraints cs).Builds (cs.flatMap (·.reduced)) := by
  unfold ofConstraints
  rw [← List.foldl_flatMap]
  exact builds_empty.foldl _

end Construction

namespace ConstraintSystem

variable [Join γ] [Meet γ] [DecidableEq γ] [DecidableEq ν] {s : ConstraintSystem γ ν ρ}

theorem node?_get_nodes (i : Fin s.nodes.length) :
    s.node? (s.graph.nodes.get i) = some i.val := by
  change s.nodes.idxOf? s.nodes[i.val] = _
  refine idxOf?_eq_some_iff_idxOf.mpr ⟨List.getElem_mem i.isLt, ?_⟩
  exact (nodup_eraseDups _).idxOf_getElem i.val i.isLt

theorem arcIn_bound (arc : Dataflow.Arc s.nodes.length (Edge γ)) :
    Construction.arcIn s.nodes (s.bound arc) = (arc.source.val, arc.target.val, arc.label) := by
  have hsource := idxOf?_eq_some_iff_idxOf.mp (node?_get_nodes arc.source)
  have htarget := idxOf?_eq_some_iff_idxOf.mp (node?_get_nodes arc.target)
  unfold Construction.arcIn bound
  rw [hsource.2, htarget.2]

theorem map_arcIn_reduced : s.reduced.map (Construction.arcIn s.nodes) =
    s.graph.arcs.map fun arc => (arc.source.val, arc.target.val, arc.label) := by
  rw [← map_bound_arcs, List.map_map]
  exact List.map_congr_left fun arc _ => arcIn_bound arc

-- The graph of a system is what the construction builds from its constraints. The atomic terms have the
-- places from zero on in the order of first mention, and the arcs stand one by one for the reduced
-- constraints, repeats included.
theorem graph_of_first_mentions (s : ConstraintSystem γ ν ρ) :
    let built := Construction.ofConstraints s.constraints
    let reduced := s.constraints.flatMap (·.reduced)
    (s.node? = built.place? ∧ s.graph.nodes.toList = built.nodes ∧
      (s.graph.arcs.map fun arc => (arc.source.val, arc.target.val, arc.label)) = built.arcs) ∧
    IsNumbering s.node? (reduced.flatMap fun r => [r.lower, r.upper]) s.graph.nodes.toList ∧
    s.graph.arcs.length = reduced.length ∧
    ∀ (j : Nat) (arc : Dataflow.Arc s.nodes.length (Edge γ)), s.graph.arcs[j]? = some arc →
      ∃ r : AtomicConstraint γ ν, reduced[j]? = some r ∧ s.node? r.upper = some arc.source.val ∧
        s.node? r.lower = some arc.target.val ∧ arc.label = r.edge := by
  intro built reduced
  have hbuilt : built.Builds s.reduced := Construction.builds_ofConstraints s.constraints
  have hnodes : s.graph.nodes.toList = built.nodes := hbuilt.nodes.symm
  refine ⟨⟨?_, hnodes, ?_⟩, isNumbering_eraseDups _, ?_, fun j arc harc => ?_⟩
  · funext t
    rw [hbuilt.place? t, ← hnodes]
    rfl
  · rw [hbuilt.arcs, ← hnodes]
    exact map_arcIn_reduced.symm
  · have hlength := congrArg List.length (map_bound_arcs (s := s))
    rwa [List.length_map] at hlength
  · refine ⟨s.bound arc, ?_, node?_get_nodes arc.source, node?_get_nodes arc.target, rfl⟩
    change s.reduced[j]? = _
    rw [← map_bound_arcs, List.getElem?_map, harc]
    rfl

end ConstraintSystem

end LabelInference
