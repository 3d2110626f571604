import LabelInference.Proofs.Term.Reduction

namespace LabelInference

universe u v

variable {γ : Type u} {ν : Type v} {P : γ → Prop}

namespace Clause

def ConstantsSatisfy (P : γ → Prop) (as : List (Clause γ ν)) : Prop := ∀ a ∈ as, ∀ c ∈ a.constant, P c

theorem forall_mem_mergeConstants {op : γ → γ → γ} (hop : ∀ {c d}, P c → P d → P (op c d))
    {x y : Option γ} (hx : ∀ c ∈ x, P c) (hy : ∀ c ∈ y, P c) : ∀ c ∈ mergeConstants op x y, P c := by
  cases x with
  | none => exact hy
  | some c =>
    cases y with
    | none => exact hx
    | some d =>
      rintro _ ⟨⟩
      exact hop (hx c rfl) (hy d rfl)

theorem ConstantsSatisfy.append {as bs : List (Clause γ ν)} (has : ConstantsSatisfy P as)
    (hbs : ConstantsSatisfy P bs) : ConstantsSatisfy P (as ++ bs) :=
  List.forall_mem_append.mpr ⟨has, hbs⟩

theorem constantsSatisfy_const {c : γ} (hc : P c) :
    ConstantsSatisfy P ([ofConst c] : List (Clause γ ν)) := by
  simpa [ConstantsSatisfy, ofConst] using hc

theorem constantsSatisfy_var {x : ν} : ConstantsSatisfy P ([ofVar x] : List (Clause γ ν)) := by
  simp [ConstantsSatisfy, ofVar]

theorem mem_constant_of_node? {a : Clause γ ν} {n : AtomicTerm γ ν} (h : a.node? = some n) {c : γ}
    (hc : c ∈ n.toTerm.constants) : c ∈ a.constant := by
  obtain ⟨_ | d, _ | x⟩ := a <;> cases h
  · cases hc
  · exact congrArg some (List.mem_singleton.mp hc).symm
  · cases hc

theorem mem_constant_of_besideUnknown {a : Clause γ ν} {c : γ} (hc : c ∈ a.besideUnknown) :
    c ∈ a.constant := by
  obtain ⟨_, _ | _⟩ := a
  · cases hc
  · exact hc

variable [DecidableEq ν]

theorem ConstantsSatisfy.product {op : γ → γ → γ} (hop : ∀ {c d}, P c → P d → P (op c d))
    {as bs cs : List (Clause γ ν)} (has : ConstantsSatisfy P as) (hbs : ConstantsSatisfy P bs)
    (h : Clause.product op as bs = .ok cs) : ConstantsSatisfy P cs := by
  intro c hc
  obtain ⟨a, ha, b, hb, hcomb⟩ := (mem_product h).mp hc
  rw [(combine_ok hcomb).1]
  exact forall_mem_mergeConstants hop (has a ha) (hbs b hb)

theorem constantsSatisfy_joinOfMeets [Meet γ] (hmeet : ∀ {c d}, P c → P d → P (meet c d))
    {t : Term γ ν} (ht : ∀ c ∈ t.constants, P c) {cs : List (Clause γ ν)}
    (h : joinOfMeets t = .ok cs) : ConstantsSatisfy P cs := by
  induction t generalizing cs with
  | const c => cases h; exact constantsSatisfy_const (ht c List.mem_cons_self)
  | var x => cases h; exact constantsSatisfy_var
  | join s t ihs iht =>
    obtain ⟨hs, ht⟩ := List.forall_mem_append.mp ht
    obtain ⟨as, bs, has, hbs, rfl⟩ := joinOfMeets_join h
    exact (ihs hs has).append (iht ht hbs)
  | meet s t ihs iht =>
    obtain ⟨hs, ht⟩ := List.forall_mem_append.mp ht
    obtain ⟨as, bs, has, hbs, hprod⟩ := joinOfMeets_meet h
    exact (ihs hs has).product hmeet (iht ht hbs) hprod

theorem constantsSatisfy_meetOfJoins [Join γ] (hjoin : ∀ {c d}, P c → P d → P (join c d))
    {t : Term γ ν} (ht : ∀ c ∈ t.constants, P c) {cs : List (Clause γ ν)}
    (h : meetOfJoins t = .ok cs) : ConstantsSatisfy P cs := by
  rw [meetOfJoins_eq_dual] at h
  rw [← Term.constants_dual] at ht
  exact @constantsSatisfy_joinOfMeets _ _ _ _ Join.toMeet hjoin _ ht _ h

end Clause

namespace AtomicConstraint

def constants (r : AtomicConstraint γ ν) : List γ :=
  r.lower.toTerm.constants ++ r.upper.toTerm.constants ++ r.edge.constants

theorem mem_constants_of_boundOf {a b : Clause γ ν} {r : AtomicConstraint γ ν}
    (h : Term.boundOf a b = some r) {c : γ} (hc : c ∈ r.constants) :
    c ∈ a.constant ∨ c ∈ b.constant := by
  obtain ⟨m, n, hm, hn, rfl⟩ := boundOf_eq_some_iff.mp h
  simp only [constants, Edge.constants, Edge.antecedent?_compose, Edge.constant?_compose,
    List.mem_append, Option.mem_toList] at hc
  rcases hc with (hc | hc) | (hc | hc)
  · exact .inl (Clause.mem_constant_of_node? hm hc)
  · exact .inr (Clause.mem_constant_of_node? hn hc)
  · exact .inl (Clause.mem_constant_of_besideUnknown hc)
  · exact .inr (Clause.mem_constant_of_besideUnknown hc)

-- The constants of a lower term are combined by meets and those of an upper term by joins, so what both keep
-- holds of every constant after the reduction.
theorem forall_constants_of_reduce [Join γ] [Meet γ] [DecidableEq ν]
    (hjoin : ∀ {c d}, P c → P d → P (join c d)) (hmeet : ∀ {c d}, P c → P d → P (meet c d))
    {lower upper : Term γ ν} (hlower : ∀ c ∈ lower.constants, P c)
    (hupper : ∀ c ∈ upper.constants, P c) {rs : List (AtomicConstraint γ ν)}
    (h : Term.reduce lower upper = .ok rs) : ∀ r ∈ rs, ∀ c ∈ r.constants, P c := by
  intro r hr c hc
  obtain ⟨as, bs, has, hbs, a, ha, b, hb, hbound⟩ := exists_clauses_of_reduce h hr
  rcases mem_constants_of_boundOf hbound hc with hca | hcb
  · exact Clause.constantsSatisfy_joinOfMeets hmeet hlower has a ha c hca
  · exact Clause.constantsSatisfy_meetOfJoins hjoin hupper hbs b hb c hcb

end AtomicConstraint

end LabelInference
