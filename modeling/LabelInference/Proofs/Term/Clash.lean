import LabelInference.Constraint
import LabelInference.Proofs.Term.Unknowns

namespace LabelInference

universe u v w

variable {γ : Type u} {ν : Type v}

inductive Connective where
  | join
  | meet
  deriving DecidableEq

def Connective.dual : Connective → Connective
  | .join => .meet
  | .meet => .join

namespace Term

def node : Connective → Term γ ν → Term γ ν → Term γ ν
  | .join => .join
  | .meet => .meet

-- Both terms have at most one unknown between them, or one of them has none.
def Agree (s t : Term γ ν) : Prop := ∀ x ∈ s.unknowns, ∀ y ∈ t.unknowns, x = y

-- At some node with the connective the two sides have different unknowns.
def Clashes (k : Connective) : Term γ ν → Prop
  | .const _ | .var _ => False
  | .join s t => s.Clashes k ∨ t.Clashes k ∨ k = .join ∧ ¬s.Agree t
  | .meet s t => s.Clashes k ∨ t.Clashes k ∨ k = .meet ∧ ¬s.Agree t

theorem unknowns_node (k : Connective) (s t : Term γ ν) :
    (node k s t).unknowns = s.unknowns ++ t.unknowns := by
  cases k <;> rfl

theorem clashes_node {j k : Connective} {s t : Term γ ν} :
    (node j s t).Clashes k ↔ s.Clashes k ∨ t.Clashes k ∨ k = j ∧ ¬s.Agree t := by
  cases j <;> rfl

theorem agree_dual_iff {s t : Term γ ν} : s.dual.Agree t.dual ↔ s.Agree t := by
  rw [Agree, unknowns_dual, unknowns_dual, Agree]

theorem clashes_dual_iff {k : Connective} {t : Term γ ν} :
    t.dual.Clashes k.dual ↔ t.Clashes k := by
  induction t with
  | const | var => rfl
  | join s t ihs iht | meet s t ihs iht =>
    simp only [dual, Clashes, ihs, iht, agree_dual_iff]
    cases k <;> simp [Connective.dual]

theorem pairwise_agree_node_iff {j : Connective} {s t : Term γ ν} {ts : List (Term γ ν)} :
    (s :: t :: ts).Pairwise Agree ↔ s.Agree t ∧ (node j s t :: ts).Pairwise Agree := by
  have hnode : ∀ u : Term γ ν, (node j s t).Agree u ↔ s.Agree u ∧ t.Agree u := by
    intro u
    simp only [Agree, unknowns_node, List.forall_mem_append]
  simp only [List.pairwise_cons, List.forall_mem_cons, hnode, forall₂_and]
  tauto

theorem mem_unknowns_foldl_node {k : Connective} {t : Term γ ν} {ts : List (Term γ ν)} {x : ν} :
    x ∈ (ts.foldl (node k) t).unknowns ↔ ∃ u ∈ t :: ts, x ∈ u.unknowns := by
  induction ts generalizing t with
  | nil => simp
  | cons u ts ih =>
    rw [List.foldl_cons, ih]
    simp only [List.exists_mem_cons_iff, unknowns_node, List.mem_append, or_assoc]

-- A connective over a list of terms clashes in one of them or between two of them.
theorem clashes_foldl_node_iff {j k : Connective} {t : Term γ ν} {ts : List (Term γ ν)} :
    (ts.foldl (node j) t).Clashes k ↔
      (∃ u ∈ t :: ts, u.Clashes k) ∨ k = j ∧ ¬(t :: ts).Pairwise Agree := by
  induction ts generalizing t with
  | nil => simp
  | cons u ts ih =>
    rw [List.foldl_cons, ih, pairwise_agree_node_iff (j := j)]
    simp only [List.exists_mem_cons_iff, clashes_node, not_and_or, and_or_left]
    grind

end Term

namespace Clause

variable [DecidableEq ν]

theorem exists_combine_iff {op : γ → γ → γ} {a b : Clause γ ν} :
    (∃ c, combine op a b = .ok c) ↔ ∀ x ∈ a.unknown, ∀ y ∈ b.unknown, x = y := by
  obtain ⟨_, _ | x⟩ := a
  · simp [combine, mergeUnknowns, Except.map]
  · obtain ⟨_, _ | y⟩ := b
    · simp [combine, mergeUnknowns, Except.map]
    · by_cases hxy : x = y <;> simp [combine, mergeUnknowns, Except.map, hxy]

theorem combine_error {op : γ → γ → γ} {a b : Clause γ ν} {x y : ν}
    (h : combine op a b = .error (x, y)) : a.unknown = some x ∧ b.unknown = some y ∧ x ≠ y := by
  obtain ⟨_, _ | x'⟩ := a
  · cases h
  · obtain ⟨_, _ | y'⟩ := b
    · cases h
    · by_cases hxy : x' = y'
      · simp [combine, mergeUnknowns, Except.map, hxy] at h
      · simp only [combine, mergeUnknowns, Except.map, hxy, if_false] at h
        cases h
        exact ⟨rfl, rfl, hxy⟩

theorem exists_product_iff {op : γ → γ → γ} {as bs : List (Clause γ ν)} :
    (∃ cs, product op as bs = .ok cs) ↔
      ∀ a ∈ as, ∀ b ∈ bs, ∀ x ∈ a.unknown, ∀ y ∈ b.unknown, x = y := by
  unfold product
  rw [exists_mapM_ok_iff]
  simp only [id_eq, List.mem_flatMap, List.mem_map, forall_exists_index, and_imp]
  constructor
  · intro h a ha b hb
    exact exists_combine_iff.mp (h _ a ha b hb rfl)
  · rintro h _ a ha b hb rfl
    exact exists_combine_iff.mpr (h a ha b hb)

theorem product_error {op : γ → γ → γ} {as bs : List (Clause γ ν)} {x y : ν}
    (h : product op as bs = .error (x, y)) :
    (∃ a ∈ as, a.unknown = some x) ∧ (∃ b ∈ bs, b.unknown = some y) ∧ x ≠ y := by
  obtain ⟨i, hi, hfail, _⟩ := exists_index_of_mapM_error h
  rw [id_eq] at hfail
  have hmem := hfail ▸ List.getElem_mem hi
  obtain ⟨a, ha, hmem⟩ := List.mem_flatMap.mp hmem
  obtain ⟨b, hb, hcomb⟩ := List.mem_map.mp hmem
  obtain ⟨hx, hy, hne⟩ := combine_error hcomb
  exact ⟨⟨a, ha, hx⟩, ⟨b, hb, hy⟩, hne⟩

section Lower

variable [Meet γ] {t : Term γ ν}

theorem exists_joinOfMeets_iff : (∃ cs, joinOfMeets t = .ok cs) ↔ ¬t.Clashes .meet := by
  induction t with
  | const d => exact iff_of_true ⟨_, rfl⟩ not_false
  | var x => exact iff_of_true ⟨_, rfl⟩ not_false
  | join s t ihs iht =>
    have hboth : (∃ cs, joinOfMeets (.join s t) = .ok cs) ↔
        (∃ as, joinOfMeets s = .ok as) ∧ ∃ bs, joinOfMeets t = .ok bs := by
      simp only [joinOfMeets, exists_bind_ok_iff]
      constructor
      · rintro ⟨as, has, bs, hbs, _⟩
        exact ⟨⟨as, has⟩, bs, hbs⟩
      · rintro ⟨⟨as, has⟩, bs, hbs⟩
        exact ⟨as, has, bs, hbs, _, rfl⟩
    rw [hboth, ihs, iht]
    simp [Term.Clashes]
  | meet s t ihs iht =>
    have hboth : (∃ cs, joinOfMeets (.meet s t) = .ok cs) ↔
        (∃ as, joinOfMeets s = .ok as) ∧ (∃ bs, joinOfMeets t = .ok bs) ∧ s.Agree t := by
      simp only [joinOfMeets, exists_bind_ok_iff]
      constructor
      · rintro ⟨as, has, bs, hbs, hprod⟩
        refine ⟨⟨as, has⟩, ⟨bs, hbs⟩, fun x hx y hy => ?_⟩
        obtain ⟨a, ha, hxa⟩ := exists_unknown_of_mem_unknowns has hx
        obtain ⟨b, hb, hyb⟩ := exists_unknown_of_mem_unknowns hbs hy
        exact exists_product_iff.mp hprod a ha b hb x hxa y hyb
      · rintro ⟨⟨as, has⟩, ⟨bs, hbs⟩, hagree⟩
        refine ⟨as, has, bs, hbs, exists_product_iff.mpr fun a ha b hb x hx y hy => ?_⟩
        exact hagree x (mem_unknowns_of_joinOfMeets has ha hx) y (mem_unknowns_of_joinOfMeets hbs hb hy)
    rw [hboth, ihs, iht]
    simp [Term.Clashes]

end Lower

section Upper

variable [Join γ] {t : Term γ ν}

theorem exists_meetOfJoins_iff : (∃ cs, meetOfJoins t = .ok cs) ↔ ¬t.Clashes .join := by
  rw [meetOfJoins_eq_dual, ← Term.clashes_dual_iff]
  exact @exists_joinOfMeets_iff _ _ _ Join.toMeet _

end Upper

end Clause

namespace Term

variable [Join γ] [Meet γ] [DecidableEq ν] {lower upper : Term γ ν}

theorem exists_reduce_iff :
    (∃ rs, reduce lower upper = .ok rs) ↔ ¬lower.Clashes .meet ∧ ¬upper.Clashes .join := by
  rw [← Clause.exists_joinOfMeets_iff, ← Clause.exists_meetOfJoins_iff]
  unfold reduce
  cases Clause.joinOfMeets lower <;> cases Clause.meetOfJoins upper <;> simp

end Term

namespace Constraint

variable {ρ : Type w} [Join γ] [Meet γ] [DecidableEq ν] {lower upper : Term γ ν} {report : γ → γ → ρ}

theorem exists_below_iff_exists_reduce :
    (∃ c, below lower upper report = .ok c) ↔ ∃ rs, Term.reduce lower upper = .ok rs := by
  unfold below
  split
  · next rs hrs => exact iff_of_true ⟨_, rfl⟩ ⟨rs, hrs⟩
  · next e he => simp [he]

theorem exists_below_iff :
    (∃ c, below lower upper report = .ok c) ↔ ¬lower.Clashes .meet ∧ ¬upper.Clashes .join :=
  exists_below_iff_exists_reduce.trans Term.exists_reduce_iff

theorem below_error {e : UnsupportedTerm γ ν} (h : below lower upper report = .error e) :
    Term.reduce lower upper = .error e := by
  unfold below at h
  split at h
  · cases h
  · next e' he =>
    cases h
    exact he

end Constraint

end LabelInference
