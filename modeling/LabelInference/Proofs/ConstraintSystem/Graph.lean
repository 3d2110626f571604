import LabelInference.ConstraintSystem.Basic
import LabelInference.Proofs.Dataflow.Equations

namespace LabelInference.ConstraintSystem

universe u v w

variable {γ : Type u} {ν : Type v} {ρ : Type w}

-- The unknowns of a list of atomic terms, each with the value at its own place.
theorem lookup_filterMap_zip [DecidableEq γ] [DecidableEq ν] {x : ν}
    (ts : List (AtomicTerm γ ν)) (values : List γ) (h : values.length = ts.length) :
    List.lookup x ((ts.zip values).filterMap fun
      | (.var y, value) => some (y, value)
      | (.const _, _) => none) = values[ts.idxOf (.var x)]? := by
  induction ts generalizing values with
  | nil => cases values <;> simp_all
  | cons t ts ih =>
    cases values with
    | nil => cases h
    | cons value values =>
      have hlen : values.length = ts.length := Nat.succ.inj h
      cases t with
      | const c =>
        simp only [List.zip_cons_cons, List.filterMap_cons, ih values hlen]
        simp
      | var y =>
        simp only [List.zip_cons_cons, List.filterMap_cons, List.lookup_cons, ih values hlen]
        by_cases hxy : x = y
        · simp [hxy]
        · have hyx : ¬y = x := fun hyx => hxy hyx.symm
          simp [beq_false_of_ne hxy, hyx]

section Graph

variable [Join γ] [Meet γ] [DecidableEq ν]
variable {s : ConstraintSystem γ ν ρ} {t : AtomicTerm γ ν} {r : AtomicConstraint γ ν}

theorem mem_reduced : r ∈ s.reduced ↔ ∃ c ∈ s.constraints, r ∈ c.reduced :=
  List.mem_flatMap

variable [DecidableEq γ]

theorem mem_nodes : t ∈ s.nodes ↔ ∃ r ∈ s.reduced, t = r.lower ∨ t = r.upper := by
  simp [nodes, List.mem_eraseDups]

theorem lower_mem_nodes (hr : r ∈ s.reduced) : r.lower ∈ s.nodes :=
  mem_nodes.mpr ⟨r, hr, .inl rfl⟩

theorem upper_mem_nodes (hr : r ∈ s.reduced) : r.upper ∈ s.nodes :=
  mem_nodes.mpr ⟨r, hr, .inr rfl⟩

-- The place of an atomic term among the nodes.
def index (s : ConstraintSystem γ ν ρ) (t : AtomicTerm γ ν) (h : t ∈ s.nodes) :
    Fin s.nodes.length :=
  ⟨s.nodes.idxOf t, List.idxOf_lt_length_of_mem h⟩

theorem get_nodes_index (h : t ∈ s.nodes) : s.graph.nodes.get (s.index t h) = t :=
  List.getElem_idxOf (List.idxOf_lt_length_of_mem h)

theorem mem_arcs_iff {arc : Dataflow.Arc s.nodes.length (Edge γ)} :
    arc ∈ s.graph.arcs ↔ ∃ r, ∃ hr : r ∈ s.reduced,
      arc = ⟨s.index r.upper (upper_mem_nodes hr), s.index r.lower (lower_mem_nodes hr), r.edge⟩ := by
  change arc ∈ s.links.attach.map _ ↔ _
  rw [List.mem_map]
  constructor
  · rintro ⟨⟨link, hlink⟩, _, rfl⟩
    obtain ⟨r, hr, rfl⟩ := List.mem_map.mp hlink
    exact ⟨r, hr, rfl⟩
  · rintro ⟨r, hr, rfl⟩
    exact ⟨⟨(r.upper, r.edge, r.lower), List.mem_map_of_mem hr⟩, List.mem_attach _ _, rfl⟩

end Graph

section Arcs

variable [Join γ] [Meet γ] [DecidableEq γ] [DecidableEq ν]

-- The atomic constraint that an arc stands for.
def bound (s : ConstraintSystem γ ν ρ) (arc : Dataflow.Arc s.nodes.length (Edge γ)) :
    AtomicConstraint γ ν :=
  ⟨s.graph.nodes.get arc.target, arc.label, s.graph.nodes.get arc.source⟩

variable {s : ConstraintSystem γ ν ρ} {r : AtomicConstraint γ ν}

-- The arcs stand for the reduced constraints, in their order.
theorem map_bound_arcs : s.graph.arcs.map s.bound = s.reduced := by
  let read (link : AtomicTerm γ ν × Edge γ × AtomicTerm γ ν) : AtomicConstraint γ ν :=
    ⟨link.2.2, link.2.1, link.1⟩
  have hbound : ∀ link : { link // link ∈ s.links },
      s.bound ⟨s.index link.val.1 (s.mem_nodes_of_mem_links _ link.property).1,
        s.index link.val.2.2 (s.mem_nodes_of_mem_links _ link.property).2, link.val.2.1⟩ =
      read link.val := by
    intro link
    simp only [bound, get_nodes_index, read]
  calc s.graph.arcs.map s.bound
      = s.links.attach.map (read ∘ Subtype.val) := by
        change (s.links.attach.map _).map s.bound = _
        rw [List.map_map]
        exact List.map_congr_left fun link _ => hbound link
    _ = s.links.map read := by rw [← List.map_map, List.attach_map_subtype_val]
    _ = s.reduced := by
        rw [links, List.map_map]
        exact List.map_id _

theorem bound_mem_reduced {arc : Dataflow.Arc s.nodes.length (Edge γ)} (h : arc ∈ s.graph.arcs) :
    s.bound arc ∈ s.reduced := by
  rw [← map_bound_arcs]
  exact List.mem_map_of_mem h

theorem exists_arc (h : r ∈ s.reduced) : ∃ arc ∈ s.graph.arcs, s.bound arc = r := by
  rw [← map_bound_arcs] at h
  exact List.mem_map.mp h

end Arcs

variable [Join γ] [Meet γ] [Imply γ] [DecidableEq γ] [DecidableEq ν]
variable {s : ConstraintSystem γ ν ρ} {top : γ}

theorem image_of_const {values : Fin s.nodes.length → γ} {v : Fin s.nodes.length} {c : γ}
    (h : s.graph.nodes.get v = .const c) : flow.image s.graph top values v = c := by
  simp only [Dataflow.FlowFunctions.image, flow, h, AtomicTerm.transfer]

-- What lies below the right-hand side at an unknown: all that is below the top and below every bound.
theorem rel_image_iff {R : γ → γ → Prop} (hR : ∀ {a b c}, R a (meet b c) ↔ R a b ∧ R a c)
    {values : Fin s.nodes.length → γ} {v : Fin s.nodes.length} {x : ν}
    (h : s.graph.nodes.get v = .var x) {a : γ} :
    R a (flow.image s.graph top values v) ↔ R a top ∧
      ∀ r, ∀ hr : r ∈ s.reduced, s.index r.lower (lower_mem_nodes hr) = v →
        R a (r.edge.propagate (values (s.index r.upper (upper_mem_nodes hr)))) := by
  simp only [Dataflow.FlowFunctions.image, flow, h, AtomicTerm.transfer]
  rw [Dataflow.rel_foldl_meet_iff (R := R) hR]
  refine and_congr_right fun _ => ?_
  simp only [Dataflow.Graph.mem_incoming, mem_arcs_iff]
  constructor
  · intro hall r hr hv
    exact hall _ ⟨⟨r, hr, rfl⟩, hv⟩
  · rintro hall _ ⟨⟨r, hr, rfl⟩, hv⟩
    exact hall r hr hv

theorem below_image_iff [LawfulMeet γ] {values : Fin s.nodes.length → γ} {v : Fin s.nodes.length}
    {x : ν} (h : s.graph.nodes.get v = .var x) {a : γ} :
    Below a (flow.image s.graph top values v) ↔ Below a top ∧
      ∀ r, ∀ hr : r ∈ s.reduced, s.index r.lower (lower_mem_nodes hr) = v →
        Below a (r.edge.propagate (values (s.index r.upper (upper_mem_nodes hr)))) :=
  rel_image_iff (R := Below) below_meet_iff h

section Candidate

variable [ChainBound γ] {x : ν}

theorem get_candidate_eq (s : ConstraintSystem γ ν ρ) (x : ν) :
    s.candidate.get x = (s.outcome.values.toList[s.nodes.idxOf (.var x)]?).getD s.bounds.top :=
  congrArg (Option.getD · s.bounds.top)
    (lookup_filterMap_zip s.nodes s.outcome.values.toList (by simp))

theorem get_candidate_of_mem (h : .var x ∈ s.nodes) :
    s.candidate.get x = s.outcome.values.get (s.index (.var x) h) := by
  have hlt := List.idxOf_lt_length_of_mem h
  rw [get_candidate_eq, Vector.getElem?_toList, Vector.getElem?_eq_getElem hlt]
  rfl

-- An unknown that no constraint mentions has the top value.
theorem get_candidate_of_not_mem (h : .var x ∉ s.nodes) : s.candidate.get x = s.bounds.top := by
  rw [get_candidate_eq, List.idxOf_eq_length h, Vector.getElem?_toList]
  simp

end Candidate

end LabelInference.ConstraintSystem
