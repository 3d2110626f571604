import LabelInference.Proofs.Edge
import LabelInference.Proofs.Except
import LabelInference.Proofs.Lattice.Bounds
import LabelInference.Proofs.Term.Dual

namespace LabelInference

universe u v

namespace Clause

variable {γ : Type u} {ν : Type v}

-- The value of the parts combined; the clause without parts has none.
def value? (op : γ → γ → γ) (value : ν → γ) (c : Clause γ ν) : Option γ :=
  mergeConstants op c.constant (c.unknown.map value)

def values (op : γ → γ → γ) (value : ν → γ) (cs : List (Clause γ ν)) : List γ :=
  cs.filterMap (value? op value)

def HasPart (c : Clause γ ν) : Prop := c.constant.isSome = true ∨ c.unknown.isSome = true

theorem HasPart.node? {c : Clause γ ν} (h : c.HasPart) : ∃ n, c.node? = some n := by
  obtain ⟨_ | _, _ | _⟩ := c
  · simp [HasPart] at h
  · exact ⟨_, rfl⟩
  · exact ⟨_, rfl⟩
  · exact ⟨_, rfl⟩

-- The constant beside the node is what the edges are composed of.
theorem value?_of_node? [Join γ] [Meet γ] {op : γ → γ → γ} {value : ν → γ} {c : Clause γ ν}
    {n : AtomicTerm γ ν} (h : c.node? = some n) :
    c.value? op value = some (beside op c.besideUnknown (n.toTerm.eval value)) := by
  obtain ⟨_ | _, _ | _⟩ := c <;> cases h <;> rfl

section Combine

variable {op : γ → γ → γ} {value : ν → γ}

instance [Std.Associative op] : Std.Associative (mergeConstants op) where
  assoc a b c := by
    cases a <;> cases b <;> cases c <;> simp [mergeConstants, Std.Associative.assoc]

instance [Std.Commutative op] : Std.Commutative (mergeConstants op) where
  comm a b := by
    cases a <;> cases b
    · rfl
    · rfl
    · rfl
    · exact congrArg some (Std.Commutative.comm _ _)

variable [DecidableEq ν]

-- Only equal unknowns are merged.
theorem mergeUnknowns_ok {x y z : Option ν} (h : mergeUnknowns x y = .ok z) :
    x = none ∧ z = y ∨ y = none ∧ z = x ∨ x = y ∧ z = x := by
  cases x with
  | none =>
    cases h
    exact .inl ⟨rfl, rfl⟩
  | some x =>
    cases y with
    | none =>
      cases h
      exact .inr (.inl ⟨rfl, rfl⟩)
    | some y =>
      simp only [mergeUnknowns] at h
      split at h
      · next hxy =>
        cases h
        exact .inr (.inr ⟨congrArg some hxy, rfl⟩)
      · cases h

-- Two equal unknowns become one, which idempotence allows.
theorem map_mergeUnknowns [Std.IdempotentOp op] {x y z : Option ν}
    (h : mergeUnknowns x y = .ok z) :
    z.map value = mergeConstants op (x.map value) (y.map value) := by
  rcases mergeUnknowns_ok h with ⟨rfl, hz⟩ | ⟨rfl, hz⟩ | ⟨rfl, hz⟩
  · rw [hz]
    rfl
  · rw [hz]
    cases x <;> rfl
  · rw [hz]
    cases x with
    | none => rfl
    | some x => exact congrArg some (Std.IdempotentOp.idempotent (value x)).symm

theorem combine_ok {a b c : Clause γ ν} (h : combine op a b = .ok c) :
    c.constant = mergeConstants op a.constant b.constant ∧
      mergeUnknowns a.unknown b.unknown = .ok c.unknown := by
  unfold combine at h
  cases hz : mergeUnknowns a.unknown b.unknown with
  | error e => rw [hz] at h; cases h
  | ok z => rw [hz] at h; cases h; exact ⟨rfl, rfl⟩

theorem value?_combine [Std.Associative op] [Std.Commutative op] [Std.IdempotentOp op]
    {a b c : Clause γ ν} (h : combine op a b = .ok c) :
    c.value? op value = mergeConstants op (a.value? op value) (b.value? op value) := by
  obtain ⟨hc, hz⟩ := combine_ok h
  have hu : c.unknown.map value = mergeConstants op (a.unknown.map value) (b.unknown.map value) :=
    map_mergeUnknowns hz
  simp only [value?, hc, hu]
  ac_rfl

theorem isSome_of_mergeUnknowns {x y z : Option ν} (h : mergeUnknowns x y = .ok z)
    (hx : x.isSome = true) : z.isSome = true := by
  rcases mergeUnknowns_ok h with ⟨rfl, _⟩ | ⟨_, rfl⟩ | ⟨_, rfl⟩
  · cases hx
  · exact hx
  · exact hx

theorem HasPart.combine {a b c : Clause γ ν} (ha : a.HasPart) (h : combine op a b = .ok c) :
    c.HasPart := by
  obtain ⟨hc, hz⟩ := combine_ok h
  rcases ha with ha | ha
  · left
    rw [hc]
    obtain ⟨d, hd⟩ := Option.isSome_iff_exists.mp ha
    cases hb : b.constant <;> simp [hd, mergeConstants]
  · right
    exact isSome_of_mergeUnknowns hz ha

-- A product that does not fail has the combination of every pair.
theorem mem_product {as bs cs : List (Clause γ ν)} (h : product op as bs = .ok cs) {c : Clause γ ν} :
    c ∈ cs ↔ ∃ a ∈ as, ∃ b ∈ bs, combine op a b = .ok c := by
  rw [mem_of_mapM_ok h]
  simp only [List.mem_flatMap, List.mem_map, id_eq, exists_eq_right]

theorem exists_combine_of_product {as bs cs : List (Clause γ ν)} (h : product op as bs = .ok cs)
    {a b : Clause γ ν} (ha : a ∈ as) (hb : b ∈ bs) : ∃ c ∈ cs, combine op a b = .ok c := by
  have hmem : combine op a b ∈ as.flatMap fun a => bs.map (combine op a) :=
    List.mem_flatMap.mpr ⟨a, ha, List.mem_map_of_mem hb⟩
  obtain ⟨c, hc⟩ := exists_mapM_ok_iff.mp ⟨cs, h⟩ _ hmem
  exact ⟨c, (mem_product h).mpr ⟨a, ha, b, hb, hc⟩, hc⟩

theorem hasPart_product {as bs cs : List (Clause γ ν)} (h : product op as bs = .ok cs)
    (has : ∀ a ∈ as, a.HasPart) : ∀ c ∈ cs, c.HasPart := by
  intro c hc
  obtain ⟨a, ha, b, _, hcomb⟩ := (mem_product h).mp hc
  exact (has a ha).combine hcomb

end Combine

theorem HasPart.value? {c : Clause γ ν} (h : c.HasPart) (op : γ → γ → γ) (value : ν → γ) :
    ∃ v, c.value? op value = some v := by
  obtain ⟨_ | _, _ | _⟩ := c
  · simp [HasPart] at h
  · exact ⟨_, rfl⟩
  · exact ⟨_, rfl⟩
  · exact ⟨_, rfl⟩

theorem values_append {op : γ → γ → γ} {value : ν → γ} (as bs : List (Clause γ ν)) :
    values op value (as ++ bs) = values op value as ++ values op value bs :=
  List.filterMap_append

theorem mem_values {op : γ → γ → γ} {value : ν → γ} {cs : List (Clause γ ν)} {v : γ} :
    v ∈ values op value cs ↔ ∃ c ∈ cs, c.value? op value = some v :=
  List.mem_filterMap

variable [DecidableEq ν]

-- The values of a product are the combined values of its factors, whose clauses all have one.
theorem mem_values_product {op : γ → γ → γ} [Std.Associative op] [Std.Commutative op]
    [Std.IdempotentOp op] {value : ν → γ} {as bs cs : List (Clause γ ν)}
    (h : product op as bs = .ok cs) (has : ∀ a ∈ as, a.HasPart) (hbs : ∀ b ∈ bs, b.HasPart) {u : γ} :
    u ∈ values op value cs ↔ u ∈ pairs op (values op value as) (values op value bs) := by
  simp only [pairs, List.mem_flatMap, List.mem_map, mem_values]
  constructor
  · rintro ⟨c, hc, hu⟩
    obtain ⟨a, ha, b, hb, hcomb⟩ := (mem_product h).mp hc
    obtain ⟨v, hv⟩ := (has a ha).value? op value
    obtain ⟨w, hw⟩ := (hbs b hb).value? op value
    rw [value?_combine hcomb, hv, hw] at hu
    exact ⟨v, ⟨a, ha, hv⟩, w, ⟨b, hb, hw⟩, Option.some.inj hu⟩
  · rintro ⟨v, ⟨a, ha, hv⟩, w, ⟨b, hb, hw⟩, rfl⟩
    obtain ⟨c, hc, hcomb⟩ := exists_combine_of_product h ha hb
    refine ⟨c, hc, ?_⟩
    rw [value?_combine hcomb, hv, hw]
    rfl

section Lower

variable [Meet γ]

theorem joinOfMeets_join {s t : Term γ ν} {cs : List (Clause γ ν)}
    (h : joinOfMeets (.join s t) = .ok cs) :
    ∃ as bs, joinOfMeets s = .ok as ∧ joinOfMeets t = .ok bs ∧ cs = as ++ bs := by
  obtain ⟨as, has, h⟩ := bind_ok h
  obtain ⟨bs, hbs, h⟩ := bind_ok h
  cases h
  exact ⟨as, bs, has, hbs, rfl⟩

theorem joinOfMeets_meet {s t : Term γ ν} {cs : List (Clause γ ν)}
    (h : joinOfMeets (.meet s t) = .ok cs) :
    ∃ as bs, joinOfMeets s = .ok as ∧ joinOfMeets t = .ok bs ∧
      product LabelInference.meet as bs = .ok cs := by
  obtain ⟨as, has, h⟩ := bind_ok h
  obtain ⟨bs, hbs, h⟩ := bind_ok h
  exact ⟨as, bs, has, hbs, h⟩

theorem hasPart_joinOfMeets {t : Term γ ν} {cs : List (Clause γ ν)} (h : joinOfMeets t = .ok cs) :
    ∀ c ∈ cs, c.HasPart := by
  induction t generalizing cs with
  | const d => cases h; simp [HasPart, ofConst]
  | var x => cases h; simp [HasPart, ofVar]
  | join s t ihs iht =>
    obtain ⟨as, bs, has, hbs, rfl⟩ := joinOfMeets_join h
    exact List.forall_mem_append.mpr ⟨ihs has, iht hbs⟩
  | meet s t ihs iht =>
    obtain ⟨as, bs, has, hbs, hprod⟩ := joinOfMeets_meet h
    exact hasPart_product hprod (ihs has)

end Lower

section Upper

variable [Join γ]

theorem meetOfJoins_join {s t : Term γ ν} {cs : List (Clause γ ν)}
    (h : meetOfJoins (.join s t) = .ok cs) :
    ∃ as bs, meetOfJoins s = .ok as ∧ meetOfJoins t = .ok bs ∧
      product LabelInference.join as bs = .ok cs := by
  obtain ⟨as, has, h⟩ := bind_ok h
  obtain ⟨bs, hbs, h⟩ := bind_ok h
  exact ⟨as, bs, has, hbs, h⟩

theorem meetOfJoins_meet {s t : Term γ ν} {cs : List (Clause γ ν)}
    (h : meetOfJoins (.meet s t) = .ok cs) :
    ∃ as bs, meetOfJoins s = .ok as ∧ meetOfJoins t = .ok bs ∧ cs = as ++ bs := by
  obtain ⟨as, has, h⟩ := bind_ok h
  obtain ⟨bs, hbs, h⟩ := bind_ok h
  cases h
  exact ⟨as, bs, has, hbs, rfl⟩

theorem hasPart_meetOfJoins {t : Term γ ν} {cs : List (Clause γ ν)} (h : meetOfJoins t = .ok cs) :
    ∀ c ∈ cs, c.HasPart := by
  rw [meetOfJoins_eq_dual] at h
  exact @hasPart_joinOfMeets _ _ _ Join.toMeet _ _ h

end Upper

variable [Join γ] [Meet γ] [Imply γ] [LawfulHeyting γ] (value : ν → γ)

theorem isJoinOf_joinOfMeets {t : Term γ ν} {cs : List (Clause γ ν)} (h : joinOfMeets t = .ok cs) :
    IsJoinOf (values LabelInference.meet value cs) (t.eval value) := by
  induction t generalizing cs with
  | const d => cases h; exact isJoinOf_singleton d
  | var x => cases h; exact isJoinOf_singleton (value x)
  | join s t ihs iht =>
    obtain ⟨as, bs, has, hbs, rfl⟩ := joinOfMeets_join h
    rw [values_append]
    exact (ihs has).append (iht hbs)
  | meet s t ihs iht =>
    obtain ⟨as, bs, has, hbs, hprod⟩ := joinOfMeets_meet h
    exact ((ihs has).pairs (iht hbs)).of_mem_iff fun _ =>
      mem_values_product hprod (hasPart_joinOfMeets has) (hasPart_joinOfMeets hbs)

theorem isMeetOf_meetOfJoins {t : Term γ ν} {cs : List (Clause γ ν)} (h : meetOfJoins t = .ok cs) :
    IsMeetOf (values LabelInference.join value cs) (t.eval value) := by
  induction t generalizing cs with
  | const d => cases h; exact isMeetOf_singleton d
  | var x => cases h; exact isMeetOf_singleton (value x)
  | join s t ihs iht =>
    obtain ⟨as, bs, has, hbs, hprod⟩ := meetOfJoins_join h
    exact ((ihs has).pairs (iht hbs)).of_mem_iff fun _ =>
      mem_values_product hprod (hasPart_meetOfJoins has) (hasPart_meetOfJoins hbs)
  | meet s t ihs iht =>
    obtain ⟨as, bs, has, hbs, rfl⟩ := meetOfJoins_meet h
    rw [values_append]
    exact (ihs has).append (iht hbs)

end Clause

end LabelInference
