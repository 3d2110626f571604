import LabelInference.Proofs.FreeLattice.Reading
import LabelInference.Proofs.Term.Clause
import LabelInference.Term.Reduction

namespace LabelInference

universe u v

variable {γ : Type u} {ν : Type v} [Join γ] [Meet γ]

namespace AtomicConstraint

def HoldsUnder [Imply γ] (value : ν → γ) (r : AtomicConstraint γ ν) : Prop :=
  Below (r.lower.toTerm.eval value) (r.edge.propagate (r.upper.toTerm.eval value))

-- The values of the two clauses that a constraint stands for: its constants go back to their sides.
def lowerSide (value : ν → γ) (r : AtomicConstraint γ ν) : γ :=
  beside meet r.edge.antecedent? (r.lower.toTerm.eval value)

def upperSide (value : ν → γ) (r : AtomicConstraint γ ν) : γ :=
  beside join r.edge.constant? (r.upper.toTerm.eval value)

theorem holdsUnder_iff_sides [Imply γ] [LawfulHeyting γ] {value : ν → γ}
    {r : AtomicConstraint γ ν} :
    r.HoldsUnder value ↔ Below (r.lowerSide value) (r.upperSide value) :=
  Edge.below_propagate_iff

omit [Join γ] [Meet γ] in
theorem boundOf_eq_some_iff {a b : Clause γ ν} {r : AtomicConstraint γ ν} :
    Term.boundOf a b = some r ↔ ∃ m n, a.node? = some m ∧ b.node? = some n ∧
      r = ⟨m, .compose a.besideUnknown b.besideUnknown, n⟩ := by
  cases hm : a.node? <;> cases hn : b.node? <;> simp [Term.boundOf, hm, hn, eq_comm]

theorem value?_of_boundOf {a b : Clause γ ν} {r : AtomicConstraint γ ν}
    (h : Term.boundOf a b = some r) (value : ν → γ) :
    a.value? meet value = some (r.lowerSide value) ∧
      b.value? join value = some (r.upperSide value) := by
  obtain ⟨m, n, hm, hn, rfl⟩ := boundOf_eq_some_iff.mp h
  rw [Clause.value?_of_node? hm, Clause.value?_of_node? hn]
  simp only [lowerSide, upperSide, Edge.antecedent?_compose, Edge.constant?_compose, and_self]

omit [Join γ] [Meet γ] in
theorem exists_boundOf {a b : Clause γ ν} (ha : a.HasPart) (hb : b.HasPart) :
    ∃ r, Term.boundOf a b = some r := by
  obtain ⟨m, hm⟩ := ha.node?
  obtain ⟨n, hn⟩ := hb.node?
  exact ⟨_, boundOf_eq_some_iff.mpr ⟨m, n, hm, hn, rfl⟩⟩

variable [DecidableEq ν]

theorem reduce_ok {lower upper : Term γ ν} {rs : List (AtomicConstraint γ ν)}
    (h : Term.reduce lower upper = .ok rs) :
    ∃ as bs, Clause.joinOfMeets lower = .ok as ∧ Clause.meetOfJoins upper = .ok bs ∧
      rs = as.flatMap fun a => bs.filterMap (Term.boundOf a) := by
  unfold Term.reduce at h
  split at h
  · cases h
  · cases h
  · next as bs has hbs =>
    cases h
    exact ⟨as, bs, has, hbs, rfl⟩

-- Each atomic constraint stands for a clause of either side.
theorem exists_clauses_of_reduce {lower upper : Term γ ν} {rs : List (AtomicConstraint γ ν)}
    (h : Term.reduce lower upper = .ok rs) {r : AtomicConstraint γ ν} (hr : r ∈ rs) :
    ∃ as bs, Clause.joinOfMeets lower = .ok as ∧ Clause.meetOfJoins upper = .ok bs ∧
      ∃ a ∈ as, ∃ b ∈ bs, Term.boundOf a b = some r := by
  obtain ⟨as, bs, has, hbs, rfl⟩ := reduce_ok h
  obtain ⟨a, ha, hr⟩ := List.mem_flatMap.mp hr
  obtain ⟨b, hb, hbound⟩ := List.mem_filterMap.mp hr
  exact ⟨as, bs, has, hbs, a, ha, b, hb, hbound⟩

-- In every order that keeps joins and meets, a constraint says that each pair of clauses is in order.
theorem rel_eval_iff_of_reduce [Imply γ] [LawfulHeyting γ] {R : γ → γ → Prop}
    (hR : IsCoarsening R) {lower upper : Term γ ν} {rs : List (AtomicConstraint γ ν)}
    (h : Term.reduce lower upper = .ok rs) (value : ν → γ) :
    R (lower.eval value) (upper.eval value) ↔
      ∀ r ∈ rs, R (r.lowerSide value) (r.upperSide value) := by
  obtain ⟨as, bs, has, hbs, rfl⟩ := reduce_ok h
  have hpairs : R (lower.eval value) (upper.eval value) ↔
      ∀ v ∈ Clause.values meet value as, ∀ w ∈ Clause.values join value bs, R v w := by
    rw [hR.join_iff (Clause.isJoinOf_joinOfMeets value has)]
    exact forall₂_congr fun v _ => hR.meet_iff (Clause.isMeetOf_meetOfJoins value hbs) v
  rw [hpairs]
  simp only [List.mem_flatMap, List.mem_filterMap]
  constructor
  · rintro h r ⟨a, ha, b, hb, hr⟩
    obtain ⟨hv, hw⟩ := value?_of_boundOf hr value
    exact h _ (Clause.mem_values.mpr ⟨a, ha, hv⟩) _ (Clause.mem_values.mpr ⟨b, hb, hw⟩)
  · intro h v hv w hw
    obtain ⟨a, ha, hv⟩ := Clause.mem_values.mp hv
    obtain ⟨b, hb, hw⟩ := Clause.mem_values.mp hw
    obtain ⟨r, hr⟩ := exists_boundOf (Clause.hasPart_joinOfMeets has a ha)
      (Clause.hasPart_meetOfJoins hbs b hb)
    obtain ⟨hv', hw'⟩ := value?_of_boundOf hr value
    cases hv.symm.trans hv'
    cases hw.symm.trans hw'
    exact h r ⟨a, ha, b, hb, hr⟩

-- Reduction keeps the meaning of a constraint under every assignment.
theorem below_eval_iff_of_reduce [Imply γ] [LawfulHeyting γ] {lower upper : Term γ ν}
    {rs : List (AtomicConstraint γ ν)} (h : Term.reduce lower upper = .ok rs) (value : ν → γ) :
    Below (lower.eval value) (upper.eval value) ↔ ∀ r ∈ rs, r.HoldsUnder value := by
  rw [rel_eval_iff_of_reduce isCoarsening_below h]
  simp only [holdsUnder_iff_sides]

end AtomicConstraint

namespace Term

variable [DecidableEq ν]

-- Whatever the nesting, the atomic constraints say what the constraint says.
theorem eval_below_iff_reduced [Imply γ] [LawfulHeyting γ] {lower upper : Term γ ν}
    {rs : List (AtomicConstraint γ ν)} (h : reduce lower upper = .ok rs) (value : ν → γ) :
    Below (lower.eval value) (upper.eval value) ↔
      ∀ r ∈ rs, Below (r.lower.toTerm.eval value) (r.edge.propagate (r.upper.toTerm.eval value)) :=
  AtomicConstraint.below_eval_iff_of_reduce h value

-- Two clauses on each side: constants merge on both, one clause of each has no unknown.
theorem eval_below_iff_reduced_nested :
    let a (k : Int) : FreeLattice Int := .atom k
    let ac := LabelInference.meet (a 0) (a 2)
    let abc := LabelInference.meet (LabelInference.meet (a 0) (a 1)) (a 2)
    let de := LabelInference.join (a 3) (a 4)
    let lower : Term (FreeLattice Int) Nat :=
      .meet (.meet (.const (a 0)) (.join (.var 7) (.const (a 1)))) (.const (a 2))
    let upper : Term (FreeLattice Int) Nat :=
      .join (.const (a 3)) (.meet (.var 8) (.const (a 4)))
    let rs : List (AtomicConstraint (FreeLattice Int) Nat) :=
      [⟨.var 7, .implyThenJoin ac (a 3), .var 8⟩, ⟨.var 7, .imply ac, .const de⟩,
        ⟨.const abc, .join (a 3), .var 8⟩, ⟨.const abc, .identity, .const de⟩]
    let value (x : Nat) : FreeLattice Int := .atom x
    reduce lower upper = .ok rs ∧
      (Below (lower.eval value) (upper.eval value) ↔
        ∀ r ∈ rs,
          Below (r.lower.toTerm.eval value) (r.edge.propagate (r.upper.toTerm.eval value))) :=
  ⟨rfl, eval_below_iff_reduced rfl _⟩

end Term

end LabelInference
