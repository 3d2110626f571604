import LabelInference.Proofs.Term.Reduction

namespace LabelInference

universe u v

variable {γ : Type u} {ν : Type v}

theorem Clause.unknown_of_node? {a : Clause γ ν} {x : ν} (h : a.node? = some (.var x)) :
    a.unknown = some x := by
  obtain ⟨_ | _, _ | _⟩ := a <;> cases h <;> rfl

theorem Clause.node?_of_unknown {a : Clause γ ν} {x : ν} (h : a.unknown = some x) :
    a.node? = some (.var x) := by
  obtain ⟨c, _ | y⟩ := a
  · cases h
  · cases h
    rfl

variable [DecidableEq ν]

namespace Clause

theorem eq_or_eq_of_mergeUnknowns {x y z : Option ν} (h : mergeUnknowns x y = .ok z) :
    z = x ∨ z = y := by
  rcases mergeUnknowns_ok h with ⟨_, hz⟩ | ⟨_, hz⟩ | ⟨_, hz⟩
  · exact .inr hz
  · exact .inl hz
  · exact .inl hz

theorem exists_unknown_of_product {op : γ → γ → γ} {as bs cs : List (Clause γ ν)}
    (h : product op as bs = .ok cs) {c : Clause γ ν} (hc : c ∈ cs) {x : ν}
    (hx : c.unknown = some x) : (∃ a ∈ as, a.unknown = some x) ∨ ∃ b ∈ bs, b.unknown = some x := by
  obtain ⟨a, ha, b, hb, hcomb⟩ := (mem_product h).mp hc
  rcases eq_or_eq_of_mergeUnknowns (combine_ok hcomb).2 with heq | heq
  · exact .inl ⟨a, ha, heq ▸ hx⟩
  · exact .inr ⟨b, hb, heq ▸ hx⟩

theorem mem_unknowns_of_joinOfMeets [Meet γ] {t : Term γ ν} {cs : List (Clause γ ν)}
    (h : joinOfMeets t = .ok cs) {c : Clause γ ν} (hc : c ∈ cs) {x : ν} (hx : c.unknown = some x) :
    x ∈ t.unknowns := by
  induction t generalizing cs c with
  | const d =>
    cases h
    rw [List.mem_singleton.mp hc] at hx
    cases hx
  | var y =>
    cases h
    rw [List.mem_singleton.mp hc] at hx
    cases hx
    exact List.mem_singleton_self x
  | join s t ihs iht =>
    obtain ⟨as, bs, has, hbs, rfl⟩ := joinOfMeets_join h
    rcases List.mem_append.mp hc with hc | hc
    · exact List.mem_append_left _ (ihs has hc hx)
    · exact List.mem_append_right _ (iht hbs hc hx)
  | meet s t ihs iht =>
    obtain ⟨as, bs, has, hbs, hprod⟩ := joinOfMeets_meet h
    rcases exists_unknown_of_product hprod hc hx with ⟨a, ha, hxa⟩ | ⟨b, hb, hxb⟩
    · exact List.mem_append_left _ (ihs has ha hxa)
    · exact List.mem_append_right _ (iht hbs hb hxb)

theorem mergeUnknowns_some_left {x : ν} {y z : Option ν} (h : mergeUnknowns (some x) y = .ok z) :
    z = some x := by
  rcases mergeUnknowns_ok h with ⟨hx, _⟩ | ⟨_, hz⟩ | ⟨_, hz⟩
  · cases hx
  · exact hz
  · exact hz

theorem mergeUnknowns_some_right {x z : Option ν} {y : ν} (h : mergeUnknowns x (some y) = .ok z) :
    z = some y := by
  rcases mergeUnknowns_ok h with ⟨_, hz⟩ | ⟨hy, _⟩ | ⟨hxy, hz⟩
  · exact hz
  · cases hy
  · exact hz.trans hxy

theorem ne_nil_of_joinOfMeets [Meet γ] {t : Term γ ν} {cs : List (Clause γ ν)}
    (h : joinOfMeets t = .ok cs) : cs ≠ [] := by
  induction t generalizing cs with
  | const d => cases h; exact List.cons_ne_nil _ _
  | var x => cases h; exact List.cons_ne_nil _ _
  | join s t ihs iht =>
    obtain ⟨as, bs, has, _, rfl⟩ := joinOfMeets_join h
    exact List.append_ne_nil_of_left_ne_nil (ihs has) bs
  | meet s t ihs iht =>
    obtain ⟨as, bs, has, hbs, hprod⟩ := joinOfMeets_meet h
    obtain ⟨a, ha⟩ := List.exists_mem_of_ne_nil as (ihs has)
    obtain ⟨b, hb⟩ := List.exists_mem_of_ne_nil bs (iht hbs)
    obtain ⟨c, hc, _⟩ := exists_combine_of_product hprod ha hb
    exact List.ne_nil_of_mem hc

-- In a product the unknown of a clause stays in its combinations with all clauses of the other factor,
-- and there is one.
theorem exists_unknown_of_mem_unknowns [Meet γ] {t : Term γ ν} {cs : List (Clause γ ν)}
    (h : joinOfMeets t = .ok cs) {x : ν} (hx : x ∈ t.unknowns) : ∃ c ∈ cs, c.unknown = some x := by
  induction t generalizing cs with
  | const d => cases hx
  | var y =>
    cases h
    rw [List.mem_singleton.mp hx]
    exact ⟨_, List.mem_singleton_self _, rfl⟩
  | join s t ihs iht =>
    obtain ⟨as, bs, has, hbs, rfl⟩ := joinOfMeets_join h
    rcases List.mem_append.mp hx with hx | hx
    · obtain ⟨a, ha, hxa⟩ := ihs has hx
      exact ⟨a, List.mem_append_left _ ha, hxa⟩
    · obtain ⟨b, hb, hxb⟩ := iht hbs hx
      exact ⟨b, List.mem_append_right _ hb, hxb⟩
  | meet s t ihs iht =>
    obtain ⟨as, bs, has, hbs, hprod⟩ := joinOfMeets_meet h
    rcases List.mem_append.mp hx with hx | hx
    · obtain ⟨a, ha, hxa⟩ := ihs has hx
      obtain ⟨b, hb⟩ := List.exists_mem_of_ne_nil bs (ne_nil_of_joinOfMeets hbs)
      obtain ⟨c, hc, hcomb⟩ := exists_combine_of_product hprod ha hb
      have hmerge := (combine_ok hcomb).2
      rw [hxa] at hmerge
      exact ⟨c, hc, mergeUnknowns_some_left hmerge⟩
    · obtain ⟨a, ha⟩ := List.exists_mem_of_ne_nil as (ne_nil_of_joinOfMeets has)
      obtain ⟨b, hb, hxb⟩ := iht hbs hx
      obtain ⟨c, hc, hcomb⟩ := exists_combine_of_product hprod ha hb
      have hmerge := (combine_ok hcomb).2
      rw [hxb] at hmerge
      exact ⟨c, hc, mergeUnknowns_some_right hmerge⟩

theorem mem_unknowns_of_meetOfJoins [Join γ] {t : Term γ ν} {cs : List (Clause γ ν)}
    (h : meetOfJoins t = .ok cs) {c : Clause γ ν} (hc : c ∈ cs) {x : ν} (hx : c.unknown = some x) :
    x ∈ t.unknowns := by
  rw [meetOfJoins_eq_dual] at h
  rw [← Term.unknowns_dual]
  exact @mem_unknowns_of_joinOfMeets _ _ _ Join.toMeet _ _ h _ hc _ hx

theorem ne_nil_of_meetOfJoins [Join γ] {t : Term γ ν} {cs : List (Clause γ ν)}
    (h : meetOfJoins t = .ok cs) : cs ≠ [] := by
  rw [meetOfJoins_eq_dual] at h
  exact @ne_nil_of_joinOfMeets _ _ _ Join.toMeet _ _ h

theorem exists_unknown_of_meetOfJoins [Join γ] {t : Term γ ν} {cs : List (Clause γ ν)}
    (h : meetOfJoins t = .ok cs) {x : ν} (hx : x ∈ t.unknowns) : ∃ c ∈ cs, c.unknown = some x := by
  rw [meetOfJoins_eq_dual] at h
  rw [← Term.unknowns_dual] at hx
  exact @exists_unknown_of_mem_unknowns _ _ _ Join.toMeet _ _ h _ hx

end Clause

namespace AtomicConstraint

variable [Join γ] [Meet γ] {lower upper : Term γ ν} {rs : List (AtomicConstraint γ ν)}
  {r : AtomicConstraint γ ν}

theorem mem_unknowns_of_lower (h : Term.reduce lower upper = .ok rs) (hr : r ∈ rs) {x : ν}
    (hx : r.lower = .var x) : x ∈ lower.unknowns := by
  obtain ⟨as, bs, has, _, a, ha, b, _, hbound⟩ := exists_clauses_of_reduce h hr
  obtain ⟨m, n, hm, _, rfl⟩ := boundOf_eq_some_iff.mp hbound
  cases hx
  exact Clause.mem_unknowns_of_joinOfMeets has ha (Clause.unknown_of_node? hm)

theorem mem_unknowns_of_upper (h : Term.reduce lower upper = .ok rs) (hr : r ∈ rs) {x : ν}
    (hx : r.upper = .var x) : x ∈ upper.unknowns := by
  obtain ⟨as, bs, _, hbs, a, _, b, hb, hbound⟩ := exists_clauses_of_reduce h hr
  obtain ⟨m, n, _, hn, rfl⟩ := boundOf_eq_some_iff.mp hbound
  cases hx
  exact Clause.mem_unknowns_of_meetOfJoins hbs hb (Clause.unknown_of_node? hn)

theorem exists_of_clauses {as bs : List (Clause γ ν)} (h : Term.reduce lower upper = .ok rs)
    (has : Clause.joinOfMeets lower = .ok as) (hbs : Clause.meetOfJoins upper = .ok bs)
    {a b : Clause γ ν} (ha : a ∈ as) (hb : b ∈ bs) :
    ∃ r ∈ rs, a.node? = some r.lower ∧ b.node? = some r.upper := by
  obtain ⟨as', bs', has', hbs', rfl⟩ := reduce_ok h
  cases has.symm.trans has'
  cases hbs.symm.trans hbs'
  obtain ⟨r, hr⟩ :=
    exists_boundOf (Clause.hasPart_joinOfMeets has a ha) (Clause.hasPart_meetOfJoins hbs b hb)
  refine ⟨r, List.mem_flatMap.mpr ⟨a, ha, List.mem_filterMap.mpr ⟨b, hb, hr⟩⟩, ?_⟩
  obtain ⟨m, n, hm, hn, rfl⟩ := boundOf_eq_some_iff.mp hr
  exact ⟨hm, hn⟩

-- Every clause meets some clause of the other term, so that no unknown is lost.
theorem exists_lower_iff (h : Term.reduce lower upper = .ok rs) {x : ν} :
    (∃ r ∈ rs, r.lower = .var x) ↔ x ∈ lower.unknowns := by
  constructor
  · rintro ⟨r, hr, hx⟩
    exact mem_unknowns_of_lower h hr hx
  · intro hx
    obtain ⟨as, bs, has, hbs, _⟩ := reduce_ok h
    obtain ⟨a, ha, hxa⟩ := Clause.exists_unknown_of_mem_unknowns has hx
    obtain ⟨b, hb⟩ := List.exists_mem_of_ne_nil bs (Clause.ne_nil_of_meetOfJoins hbs)
    obtain ⟨r, hr, hnode, _⟩ := exists_of_clauses h has hbs ha hb
    rw [Clause.node?_of_unknown hxa] at hnode
    exact ⟨r, hr, (Option.some.inj hnode).symm⟩

theorem exists_upper_iff (h : Term.reduce lower upper = .ok rs) {x : ν} :
    (∃ r ∈ rs, r.upper = .var x) ↔ x ∈ upper.unknowns := by
  constructor
  · rintro ⟨r, hr, hx⟩
    exact mem_unknowns_of_upper h hr hx
  · intro hx
    obtain ⟨as, bs, has, hbs, _⟩ := reduce_ok h
    obtain ⟨a, ha⟩ := List.exists_mem_of_ne_nil as (Clause.ne_nil_of_joinOfMeets has)
    obtain ⟨b, hb, hxb⟩ := Clause.exists_unknown_of_meetOfJoins hbs hx
    obtain ⟨r, hr, _, hnode⟩ := exists_of_clauses h has hbs ha hb
    rw [Clause.node?_of_unknown hxb] at hnode
    exact ⟨r, hr, (Option.some.inj hnode).symm⟩

end AtomicConstraint

end LabelInference
