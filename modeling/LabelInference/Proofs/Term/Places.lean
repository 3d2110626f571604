import LabelInference.Lattice.Tags
import LabelInference.Proofs.Term.Offence
import LabelInference.Proofs.Term.Renaming
import Mathlib.Data.List.ProdSigma

namespace LabelInference

universe u v w

-- In a concatenation of lists of one length the place of each list is known.
theorem getElem?_flatMap_of_length {α : Type u} {β : Type v} {g : α → List β} {n : Nat}
    {xs : List α} (hg : ∀ x ∈ xs, (g x).length = n) {i j : Nat} (hj : j < n) {x : α}
    (hx : xs[i]? = some x) : (xs.flatMap g)[n * i + j]? = (g x)[j]? := by
  induction xs generalizing i with
  | nil => cases hx
  | cons y ys ih =>
    obtain ⟨hy, hys⟩ := List.forall_mem_cons.mp hg
    rw [List.flatMap_cons]
    cases i with
    | zero =>
      obtain rfl : y = x := Option.some.inj hx
      rw [Nat.mul_zero, Nat.zero_add, List.getElem?_append_left (by omega)]
    | succ i =>
      have hindex : n * (i + 1) + j - (g y).length = n * i + j := by
        rw [hy, Nat.mul_succ]
        omega
      have hle : (g y).length ≤ n * (i + 1) + j := by
        rw [hy, Nat.mul_succ]
        omega
      rw [List.getElem?_append_right hle, hindex]
      exact ih hys hx

theorem getElem?_product {α : Type u} {β : Type v} {as : List α} {bs : List β} {p q : Nat} {a : α}
    {b : β} (ha : as[p]? = some a) (hb : bs[q]? = some b) :
    (as ×ˢ bs)[p * bs.length + q]? = some (a, b) := by
  have hflat : as ×ˢ bs = as.flatMap fun a => bs.map (Prod.mk a) := rfl
  have hlength : ∀ a' ∈ as, (bs.map (Prod.mk a')).length = bs.length := fun _ _ => List.length_map _
  obtain ⟨hq, _⟩ := List.getElem?_eq_some_iff.mp hb
  rw [hflat, Nat.mul_comm, getElem?_flatMap_of_length hlength hq ha, List.getElem?_map, hb]
  rfl

theorem getElem?_product_iff {α : Type u} {β : Type v} {as : List α} {bs : List β} {i : Nat} {a : α}
    {b : β} : (as ×ˢ bs)[i]? = some (a, b) ↔
      ∃ p q, i = p * bs.length + q ∧ as[p]? = some a ∧ bs[q]? = some b := by
  constructor
  · intro h
    obtain ⟨hi, _⟩ := List.getElem?_eq_some_iff.mp h
    rw [List.length_product] at hi
    have hpos : 0 < bs.length := Nat.pos_of_lt_mul_left hi
    have hp : i / bs.length < as.length := Nat.div_lt_of_lt_mul (Nat.mul_comm _ _ ▸ hi)
    have hq : i % bs.length < bs.length := Nat.mod_lt _ hpos
    have hindex : i = i / bs.length * bs.length + i % bs.length := (Nat.div_add_mod' i _).symm
    have hpair := getElem?_product (List.getElem?_eq_getElem hp) (List.getElem?_eq_getElem hq)
    rw [← hindex, h] at hpair
    cases hpair
    exact ⟨_, _, hindex, List.getElem?_eq_getElem hp, List.getElem?_eq_getElem hq⟩
  · rintro ⟨p, q, rfl, ha, hb⟩
    exact getElem?_product ha hb

theorem getElem?_append_iff {α : Type u} {as bs : List α} {i : Nat} {a : α} :
    (as ++ bs)[i]? = some a ↔ as[i]? = some a ∨ ∃ j, i = as.length + j ∧ bs[j]? = some a := by
  by_cases hi : i < as.length
  · have hnone : ¬∃ j, i = as.length + j ∧ bs[j]? = some a := by
      rintro ⟨j, rfl, _⟩
      omega
    rw [List.getElem?_append_left hi, or_iff_left hnone]
  · have hnone : as[i]? = none := List.getElem?_eq_none (Nat.le_of_not_lt hi)
    obtain ⟨j, rfl⟩ := Nat.exists_eq_add_of_le (Nat.le_of_not_lt hi)
    rw [List.getElem?_append_right (Nat.le_add_right _ _), Nat.add_sub_cancel_left, hnone]
    simp

theorem getElem?_singleton_iff {α : Type u} {i : Nat} {a b : α} :
    [a][i]? = some b ↔ i = 0 ∧ b = a := by
  cases i <;> simp [eq_comm]

theorem length_eq_of_map_eq {α : Type u} {β : Type v} {δ : Type w} {f : α → δ} {g : β → δ}
    {xs : List α} {ys : List β} (h : xs.map f = ys.map g) : ys.length = xs.length := by
  have hlength := congrArg List.length h
  rw [List.length_map, List.length_map] at hlength
  exact hlength.symm

-- What two lists become in common is known of their members place by place.
theorem getElem?_eq_some_iff_of_map_eq {α : Type u} {β : Type v} {δ : Type w} {f : α → δ} {g : β → δ}
    (hg : Function.Injective g) {xs : List α} {ys : List β} (h : xs.map f = ys.map g) {i : Nat}
    {y : β} : ys[i]? = some y ↔ ∃ x, xs[i]? = some x ∧ f x = g y := by
  have hplace : ys[i]? = some y ↔ (ys.map g)[i]? = some (g y) := by
    simp [hg.eq_iff]
  rw [hplace, ← h, List.getElem?_map, Option.map_eq_some_iff]

variable {γ : Type u} {ν : Type v}

namespace Term

-- How many clauses an expansion has that splits at the given connective.
def clauseCount : Connective → Term γ ν → Nat
  | _, .const _ | _, .var _ => 1
  | .join, .join s t => s.clauseCount .join + t.clauseCount .join
  | .join, .meet s t => s.clauseCount .join * t.clauseCount .join
  | .meet, .join s t => s.clauseCount .meet * t.clauseCount .meet
  | .meet, .meet s t => s.clauseCount .meet + t.clauseCount .meet

section Count

variable (k : Connective) (s t : Term γ ν)

theorem clauseCount_node :
    (node k s t).clauseCount k = s.clauseCount k + t.clauseCount k := by
  cases k <;> rfl

theorem clauseCount_node_dual :
    (node k.dual s t).clauseCount k = s.clauseCount k * t.clauseCount k := by
  cases k <;> rfl

theorem clauseCount_pos : 0 < t.clauseCount k := by
  induction t with
  | const | var => cases k <;> exact Nat.one_pos
  | join s t ihs iht =>
    cases k with
    | join => exact Nat.add_pos_left ihs _
    | meet => exact Nat.mul_pos ihs iht
  | meet s t ihs iht =>
    cases k with
    | join => exact Nat.mul_pos ihs iht
    | meet => exact Nat.add_pos_left ihs _

end Count

theorem node_eq_node_iff {j k : Connective} {s t s' t' : Term γ ν} :
    node j s t = node k s' t' ↔ j = k ∧ s = s' ∧ t = t' := by
  cases j <;> cases k <;> simp [node]

variable [DecidableEq ν]

-- The clause at each place of the expansion that splits at the given connective. Where it pairs clauses,
-- a place is counted like a number of two digits.
inductive ClauseAt (k : Connective) (op : γ → γ → γ) : Term γ ν → Nat → Clause γ ν → Prop where
  | const (c : γ) : ClauseAt k op (.const c) 0 (.ofConst c)
  | var (x : ν) : ClauseAt k op (.var x) 0 (.ofVar x)
  | left {s t : Term γ ν} {i : Nat} {a : Clause γ ν} (ha : ClauseAt k op s i a) :
    ClauseAt k op (node k s t) i a
  | right {s t : Term γ ν} {j : Nat} {b : Clause γ ν} (hb : ClauseAt k op t j b) :
    ClauseAt k op (node k s t) (s.clauseCount k + j) b
  | pair {s t : Term γ ν} {p q : Nat} {a b c : Clause γ ν} (ha : ClauseAt k op s p a)
    (hb : ClauseAt k op t q b) (hc : Clause.combine op a b = .ok c) :
    ClauseAt k op (node k.dual s t) (p * t.clauseCount k + q) c

section ClauseAt

variable {k : Connective} {op : γ → γ → γ} {s t : Term γ ν} {i : Nat} {c : Clause γ ν}

theorem clauseAt_const_iff {d : γ} :
    (const d : Term γ ν).ClauseAt k op i c ↔ i = 0 ∧ c = .ofConst d := by
  constructor
  · intro h
    generalize ht : (const d : Term γ ν) = t at h
    cases h with
    | const => cases ht; exact ⟨rfl, rfl⟩
    | var => cases ht
    | left | right | pair => cases k <;> cases ht
  · rintro ⟨rfl, rfl⟩
    exact .const d

theorem clauseAt_var_iff {x : ν} :
    (var x : Term γ ν).ClauseAt k op i c ↔ i = 0 ∧ c = .ofVar x := by
  constructor
  · intro h
    generalize ht : (var x : Term γ ν) = t at h
    cases h with
    | const => cases ht
    | var => cases ht; exact ⟨rfl, rfl⟩
    | left | right | pair => cases k <;> cases ht
  · rintro ⟨rfl, rfl⟩
    exact .var x

theorem clauseAt_node_iff : (node k s t).ClauseAt k op i c ↔
    s.ClauseAt k op i c ∨ ∃ j, i = s.clauseCount k + j ∧ t.ClauseAt k op j c := by
  constructor
  · intro h
    generalize hnode : node k s t = u at h
    cases h with
    | const | var => cases k <;> cases hnode
    | left ha =>
      obtain ⟨_, rfl, rfl⟩ := node_eq_node_iff.mp hnode
      exact .inl ha
    | right hb =>
      obtain ⟨_, rfl, rfl⟩ := node_eq_node_iff.mp hnode
      exact .inr ⟨_, rfl, hb⟩
    | pair => cases k <;> cases hnode
  · rintro (ha | ⟨j, rfl, hb⟩)
    · exact ha.left
    · exact hb.right

theorem clauseAt_node_dual_iff : (node k.dual s t).ClauseAt k op i c ↔
    ∃ p q a b, i = p * t.clauseCount k + q ∧ s.ClauseAt k op p a ∧ t.ClauseAt k op q b ∧
      Clause.combine op a b = .ok c := by
  constructor
  · intro h
    generalize hnode : node k.dual s t = u at h
    cases h with
    | const | var => cases k <;> cases hnode
    | left | right => cases k <;> cases hnode
    | pair ha hb hc =>
      obtain ⟨_, rfl, rfl⟩ := node_eq_node_iff.mp hnode
      exact ⟨_, _, _, _, rfl, ha, hb, hc⟩
  · rintro ⟨p, q, a, b, rfl, ha, hb, hc⟩
    exact ha.pair hb hc

end ClauseAt

-- The clauses of a term, each in its place.
structure IsExpansion (k : Connective) (op : γ → γ → γ) (t : Term γ ν)
    (cs : List (Clause γ ν)) : Prop where
  length_eq : cs.length = t.clauseCount k
  getElem?_iff : ∀ i c, cs[i]? = some c ↔ t.ClauseAt k op i c

end Term

namespace Clause

variable [DecidableEq ν] {op : γ → γ → γ} {as bs cs : List (Clause γ ν)}

theorem map_combine_of_product (h : product op as bs = .ok cs) :
    ((as ×ˢ bs).map fun pair => combine op pair.1 pair.2) = cs.map .ok := by
  rw [product_eq_mapM] at h
  exact mapM_ok_iff.mp h

theorem length_product (h : product op as bs = .ok cs) : cs.length = as.length * bs.length := by
  rw [length_eq_of_map_eq (map_combine_of_product h), List.length_product]

-- The clause at a place combines the clauses at its two digits.
theorem getElem?_of_product (h : product op as bs = .ok cs) {i : Nat} {c : Clause γ ν} :
    cs[i]? = some c ↔ ∃ p q a b, i = p * bs.length + q ∧ as[p]? = some a ∧ bs[q]? = some b ∧
      combine op a b = .ok c := by
  have hok : Function.Injective (Except.ok : Clause γ ν → Except (ν × ν) (Clause γ ν)) :=
    fun _ _ => Except.ok.inj
  rw [getElem?_eq_some_iff_of_map_eq hok (map_combine_of_product h)]
  constructor
  · rintro ⟨⟨a, b⟩, hab, hc⟩
    obtain ⟨p, q, hi, ha, hb⟩ := getElem?_product_iff.mp hab
    exact ⟨p, q, a, b, hi, ha, hb, hc⟩
  · rintro ⟨p, q, a, b, hi, ha, hb, hc⟩
    exact ⟨(a, b), getElem?_product_iff.mpr ⟨p, q, hi, ha, hb⟩, hc⟩

end Clause

namespace Term

variable [DecidableEq ν] {k : Connective} {op : γ → γ → γ} {s t : Term γ ν}
  {as bs cs : List (Clause γ ν)}

theorem isExpansion_const (c : γ) : (const c : Term γ ν).IsExpansion k op [.ofConst c] where
  length_eq := by cases k <;> rfl
  getElem?_iff i c := by rw [clauseAt_const_iff, getElem?_singleton_iff]

theorem isExpansion_var (x : ν) : (var x : Term γ ν).IsExpansion k op [.ofVar x] where
  length_eq := by cases k <;> rfl
  getElem?_iff i c := by rw [clauseAt_var_iff, getElem?_singleton_iff]

theorem IsExpansion.append (hs : s.IsExpansion k op as) (ht : t.IsExpansion k op bs) :
    (node k s t).IsExpansion k op (as ++ bs) where
  length_eq := by rw [List.length_append, hs.length_eq, ht.length_eq, clauseCount_node]
  getElem?_iff i c := by
    simp only [getElem?_append_iff, clauseAt_node_iff, hs.getElem?_iff, ht.getElem?_iff,
      hs.length_eq]

theorem IsExpansion.product (hs : s.IsExpansion k op as) (ht : t.IsExpansion k op bs)
    (h : Clause.product op as bs = .ok cs) : (node k.dual s t).IsExpansion k op cs where
  length_eq := by
    rw [Clause.length_product h, hs.length_eq, ht.length_eq, clauseCount_node_dual]
  getElem?_iff i c := by
    simp only [Clause.getElem?_of_product h, clauseAt_node_dual_iff, hs.getElem?_iff,
      ht.getElem?_iff, ht.length_eq]

section Lower

variable [Meet γ]

theorem isExpansion_joinOfMeets (h : Clause.joinOfMeets t = .ok cs) :
    t.IsExpansion .join LabelInference.meet cs := by
  induction t generalizing cs with
  | const c => cases h; exact isExpansion_const c
  | var x => cases h; exact isExpansion_var x
  | join s t ihs iht =>
    obtain ⟨as, bs, has, hbs, rfl⟩ := Clause.joinOfMeets_join h
    exact (ihs has).append (iht hbs)
  | meet s t ihs iht =>
    obtain ⟨as, bs, has, hbs, hprod⟩ := Clause.joinOfMeets_meet h
    exact (ihs has).product (iht hbs) hprod

-- The expansion of a term expands all of its subterms.
theorem exists_isExpansion_of_joinOfMeets (h : Clause.joinOfMeets t = .ok cs)
    (hs : s ∈ t.postorder) :
    ∃ as, Clause.joinOfMeets s = .ok as ∧ (∀ a ∈ as, a.HasPart) ∧
      s.IsExpansion .join LabelInference.meet as := by
  have hclash : ¬s.Clashes .meet :=
    mt (Clashes.of_mem_postorder hs) (Clause.exists_joinOfMeets_iff.mp ⟨cs, h⟩)
  obtain ⟨as, has⟩ := Clause.exists_joinOfMeets_iff.mpr hclash
  exact ⟨as, has, Clause.hasPart_joinOfMeets has, isExpansion_joinOfMeets has⟩

end Lower

section Upper

variable [Join γ]

theorem isExpansion_meetOfJoins (h : Clause.meetOfJoins t = .ok cs) :
    t.IsExpansion .meet LabelInference.join cs := by
  induction t generalizing cs with
  | const c => cases h; exact isExpansion_const c
  | var x => cases h; exact isExpansion_var x
  | join s t ihs iht =>
    obtain ⟨as, bs, has, hbs, hprod⟩ := Clause.meetOfJoins_join h
    exact (ihs has).product (iht hbs) hprod
  | meet s t ihs iht =>
    obtain ⟨as, bs, has, hbs, rfl⟩ := Clause.meetOfJoins_meet h
    exact (ihs has).append (iht hbs)

theorem exists_isExpansion_of_meetOfJoins (h : Clause.meetOfJoins t = .ok cs)
    (hs : s ∈ t.postorder) :
    ∃ bs, Clause.meetOfJoins s = .ok bs ∧ (∀ b ∈ bs, b.HasPart) ∧
      s.IsExpansion .meet LabelInference.join bs := by
  have hclash : ¬s.Clashes .join :=
    mt (Clashes.of_mem_postorder hs) (Clause.exists_meetOfJoins_iff.mp ⟨cs, h⟩)
  obtain ⟨bs, hbs⟩ := Clause.exists_meetOfJoins_iff.mpr hclash
  exact ⟨bs, hbs, Clause.hasPart_meetOfJoins hbs, isExpansion_meetOfJoins hbs⟩

end Upper

end Term

-- If no pair is left out, the bounds stand as the pairs do.
theorem AtomicConstraint.map_boundOf_eq {as bs : List (Clause γ ν)}
    (hbounded : ∀ a ∈ as, ∀ b ∈ bs, ∃ r, Term.boundOf a b = some r) :
    ((as ×ˢ bs).map fun pair => Term.boundOf pair.1 pair.2) =
      (as.flatMap fun a => bs.filterMap (Term.boundOf a)).map some := by
  have hpairs : (as.flatMap fun a => bs.filterMap (Term.boundOf a)) =
      (as ×ˢ bs).filterMap fun pair => Term.boundOf pair.1 pair.2 := by
    have hflat : as ×ˢ bs = as.flatMap fun a => bs.map (Prod.mk a) := rfl
    simp only [hflat, List.filterMap_flatMap, List.filterMap_map]
    rfl
  have hsome : ∀ r ∈ (as ×ˢ bs).map fun pair => Term.boundOf pair.1 pair.2, r.isSome = true := by
    simp only [List.forall_mem_map]
    rintro ⟨a, b⟩ hab
    obtain ⟨ha, hb⟩ := List.mem_product.mp hab
    exact Option.isSome_iff_exists.mpr (hbounded a ha b hb)
  rw [hpairs, List.map_filterMap_some_eq_filter_map_isSome]
  exact (List.filter_eq_self.mpr hsome).symm

namespace Term

-- Every pair of clauses is bounded in its place. What is listed before the bounds is what the places
-- mean: the expansions of both terms and of all their subterms.
theorem reduce_bounds_every_pair [Join γ] [Meet γ] [DecidableEq ν] {lower upper : Term γ ν}
    {rs : List (AtomicConstraint γ ν)} (h : reduce lower upper = .ok rs) :
    (∀ k (t : Term γ ν), 0 < t.clauseCount k) ∧
    (∀ s ∈ lower.postorder, ∃ cs, Clause.joinOfMeets s = .ok cs ∧
      (∀ c ∈ cs, c.HasPart) ∧ s.IsExpansion .join LabelInference.meet cs) ∧
    (∀ s ∈ upper.postorder, ∃ cs, Clause.meetOfJoins s = .ok cs ∧
      (∀ c ∈ cs, c.HasPart) ∧ s.IsExpansion .meet LabelInference.join cs) ∧
    ∃ as bs, Clause.joinOfMeets lower = .ok as ∧ Clause.meetOfJoins upper = .ok bs ∧
      (∀ a ∈ as, ∀ b ∈ bs, boundOf a b ≠ none) ∧
      rs.length = lower.clauseCount .join * upper.clauseCount .meet ∧
      ∀ i < lower.clauseCount .join, ∀ j < upper.clauseCount .meet,
        ∃ a b m n, as[i]? = some a ∧ bs[j]? = some b ∧ a.node? = some m ∧ b.node? = some n ∧
          rs[i * upper.clauseCount .meet + j]? =
            some ⟨m, .compose a.besideUnknown b.besideUnknown, n⟩ := by
  obtain ⟨as, bs, has, hbs, hrs⟩ := AtomicConstraint.reduce_ok h
  have hlower := isExpansion_joinOfMeets has
  have hupper := isExpansion_meetOfJoins hbs
  have hbounded : ∀ a ∈ as, ∀ b ∈ bs, ∃ r, boundOf a b = some r := by
    intro a ha b hb
    exact AtomicConstraint.exists_boundOf (Clause.hasPart_joinOfMeets has a ha)
      (Clause.hasPart_meetOfJoins hbs b hb)
  have hpairs := AtomicConstraint.map_boundOf_eq hbounded
  rw [← hrs] at hpairs
  refine ⟨fun k t => clauseCount_pos k t, fun s hs => exists_isExpansion_of_joinOfMeets has hs,
    fun s hs => exists_isExpansion_of_meetOfJoins hbs hs, as, bs, has, hbs, ?_, ?_, ?_⟩
  · intro a ha b hb hnone
    obtain ⟨r, hr⟩ := hbounded a ha b hb
    exact Option.some_ne_none r (hr.symm.trans hnone)
  · rw [length_eq_of_map_eq hpairs, List.length_product, hlower.length_eq, hupper.length_eq]
  · intro i hi j hj
    rw [← hlower.length_eq] at hi
    rw [← hupper.length_eq] at hj ⊢
    have ha := List.getElem?_eq_getElem hi
    have hb := List.getElem?_eq_getElem hj
    obtain ⟨r, hr⟩ := hbounded _ (List.getElem_mem hi) _ (List.getElem_mem hj)
    have hplace : rs[i * bs.length + j]? = some r :=
      (getElem?_eq_some_iff_of_map_eq (Option.some_injective _) hpairs).mpr
        ⟨_, getElem?_product ha hb, hr⟩
    obtain ⟨m, n, hm, hn, rfl⟩ := AtomicConstraint.boundOf_eq_some_iff.mp hr
    exact ⟨_, _, m, n, ha, hb, hm, hn, hplace⟩

-- A product on either side: constants merge in one clause, and equal unknowns in another one.
theorem reduce_bounds_every_pair_two_products :
    let lower : Term Tags Nat := .meet (.join (.const ⟨1⟩) (.var 7)) (.join (.var 7) (.const ⟨3⟩))
    let upper : Term Tags Nat := .meet (.var 8) (.join (.const ⟨4⟩) (.join (.var 8) (.const ⟨2⟩)))
    let rs : List (AtomicConstraint Tags Nat) :=
      [⟨.var 7, .imply ⟨1⟩, .var 8⟩, ⟨.var 7, .implyThenJoin ⟨1⟩ ⟨6⟩, .var 8⟩,
        ⟨.const ⟨1⟩, .identity, .var 8⟩, ⟨.const ⟨1⟩, .join ⟨6⟩, .var 8⟩,
        ⟨.var 7, .identity, .var 8⟩, ⟨.var 7, .join ⟨6⟩, .var 8⟩,
        ⟨.var 7, .imply ⟨3⟩, .var 8⟩, ⟨.var 7, .implyThenJoin ⟨3⟩ ⟨6⟩, .var 8⟩]
    reduce lower upper = .ok rs ∧
      (∀ k (t : Term Tags Nat), 0 < t.clauseCount k) ∧
      (∀ s ∈ lower.postorder, ∃ cs, Clause.joinOfMeets s = .ok cs ∧
        (∀ c ∈ cs, c.HasPart) ∧ s.IsExpansion .join LabelInference.meet cs) ∧
      (∀ s ∈ upper.postorder, ∃ cs, Clause.meetOfJoins s = .ok cs ∧
        (∀ c ∈ cs, c.HasPart) ∧ s.IsExpansion .meet LabelInference.join cs) ∧
      ∃ as bs, Clause.joinOfMeets lower = .ok as ∧ Clause.meetOfJoins upper = .ok bs ∧
        (∀ a ∈ as, ∀ b ∈ bs, boundOf a b ≠ none) ∧ rs.length = 4 * 2 ∧
        ∀ i < 4, ∀ j < 2, ∃ a b m n, as[i]? = some a ∧ bs[j]? = some b ∧ a.node? = some m ∧
          b.node? = some n ∧
          rs[i * 2 + j]? = some ⟨m, .compose a.besideUnknown b.besideUnknown, n⟩ :=
  ⟨rfl, reduce_bounds_every_pair rfl⟩

end Term

end LabelInference
