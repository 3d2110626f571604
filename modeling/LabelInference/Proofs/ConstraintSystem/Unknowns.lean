import LabelInference.Proofs.ConstraintSystem.Construction
import LabelInference.Proofs.Term.Unknowns

namespace LabelInference

universe u v w

variable {γ : Type u} {ν : Type v} {ρ : Type w}

def AtomicTerm.unknown? : AtomicTerm γ ν → Option ν
  | .const _ => none
  | .var x => some x

theorem AtomicTerm.unknown?_eq_some_iff {t : AtomicTerm γ ν} {x : ν} :
    t.unknown? = some x ↔ t = .var x := by
  cases t <;> simp [unknown?]

namespace ConstraintSystem

variable [Join γ] [Meet γ] [DecidableEq γ] [DecidableEq ν] {s : ConstraintSystem γ ν ρ} {x : ν}

theorem var_mem_nodes_iff :
    .var x ∈ s.nodes ↔ ∃ c ∈ s.constraints, x ∈ c.lower.unknowns ∨ x ∈ c.upper.unknowns := by
  have hsides : ∀ c : Constraint γ ν ρ, (x ∈ c.lower.unknowns ∨ x ∈ c.upper.unknowns) ↔
      ∃ r ∈ c.reduced, AtomicTerm.var x = r.lower ∨ AtomicTerm.var x = r.upper := by
    intro c
    rw [← AtomicConstraint.exists_lower_iff c.reduces, ← AtomicConstraint.exists_upper_iff c.reduces,
      ← exists_or]
    refine exists_congr fun r => ?_
    rw [← and_or_left, eq_comm, eq_comm (a := r.upper)]
  simp only [hsides, mem_nodes, mem_reduced]
  constructor
  · rintro ⟨r, ⟨c, hc, hr⟩, hx⟩
    exact ⟨c, hc, r, hr, hx⟩
  · rintro ⟨c, hc, r, hr, hx⟩
    exact ⟨r, ⟨c, hc, hr⟩, hx⟩

variable [Imply γ] [ChainBound γ]

-- The unknowns of the candidate are those among the nodes, in the same order.
theorem map_fst_candidate (s : ConstraintSystem γ ν ρ) :
    s.candidate.values.map Prod.fst = s.nodes.filterMap AtomicTerm.unknown? := by
  have hlength : s.nodes.length ≤ s.outcome.values.toList.length := by simp
  have hfirst : s.candidate.values.map Prod.fst =
      (s.nodes.zip s.outcome.values.toList).filterMap fun entry => entry.1.unknown? := by
    unfold candidate
    rw [List.map_filterMap]
    refine List.filterMap_congr fun entry _ => ?_
    obtain ⟨_ | _, _⟩ := entry <;> rfl
  calc s.candidate.values.map Prod.fst
      = ((s.nodes.zip s.outcome.values.toList).map Prod.fst).filterMap AtomicTerm.unknown? := by
        rw [hfirst, List.filterMap_map]
        rfl
    _ = s.nodes.filterMap AtomicTerm.unknown? := by rw [List.map_fst_zip hlength]

theorem nodup_candidate (s : ConstraintSystem γ ν ρ) : (s.candidate.values.map Prod.fst).Nodup := by
  rw [map_fst_candidate]
  refine (nodup_eraseDups _).filterMap fun t u x ht hu => ?_
  rw [AtomicTerm.unknown?_eq_some_iff.mp ht, AtomicTerm.unknown?_eq_some_iff.mp hu]

theorem mem_candidate_iff : x ∈ s.candidate.values.map Prod.fst ↔
    ∃ c ∈ s.constraints, x ∈ c.lower.unknowns ∨ x ∈ c.upper.unknowns := by
  rw [map_fst_candidate, List.mem_filterMap, ← var_mem_nodes_iff]
  simp only [AtomicTerm.unknown?_eq_some_iff, exists_eq_right]

-- An entry comes from one place, which is the place of its unknown.
theorem exists_node_of_mem_candidate {a : γ} (h : (x, a) ∈ s.candidate.values) :
    ∃ i : Fin s.nodes.length, s.node? (.var x) = some i.val ∧ s.outcome.values.get i = a := by
  unfold candidate at h
  obtain ⟨⟨t, value⟩, hmem, hentry⟩ := List.mem_filterMap.mp h
  cases t with
  | const c => cases hentry
  | var y =>
    cases hentry
    obtain ⟨i, hi, hget⟩ := List.mem_iff_getElem.mp hmem
    rw [List.getElem_zip, Prod.mk.injEq] at hget
    have hlt : i < s.nodes.length := by
      rw [List.length_zip] at hi
      omega
    refine ⟨⟨i, hlt⟩, ?_, hget.2⟩
    rw [← hget.1]
    exact node?_get_nodes ⟨i, hlt⟩

end ConstraintSystem

end LabelInference
