import LabelInference.Proofs.Term.Reduction

namespace LabelInference

universe u v v'

variable {γ : Type u} {ν : Type v} {ν' : Type v'}

def Term.rename (f : ν → ν') : Term γ ν → Term γ ν'
  | .const c => .const c
  | .var x => .var (f x)
  | .join s t => .join (s.rename f) (t.rename f)
  | .meet s t => .meet (s.rename f) (t.rename f)

def AtomicTerm.rename (f : ν → ν') : AtomicTerm γ ν → AtomicTerm γ ν'
  | .const c => .const c
  | .var x => .var (f x)

def AtomicConstraint.rename (f : ν → ν') (r : AtomicConstraint γ ν) : AtomicConstraint γ ν' :=
  ⟨r.lower.rename f, r.edge, r.upper.rename f⟩

def Clause.rename (f : ν → ν') (c : Clause γ ν) : Clause γ ν' := ⟨c.constant, c.unknown.map f⟩

variable {f : ν → ν'}

theorem Term.rename_involutive {f : ν → ν} (hf : Function.Involutive f) :
    Function.Involutive (Term.rename f : Term γ ν → Term γ ν) := by
  intro t
  induction t with
  | const c => rfl
  | var x => rw [rename, rename, hf]
  | join s t ihs iht | meet s t ihs iht => rw [rename, rename, ihs, iht]

theorem Term.dual_rename (t : Term γ ν) : (t.rename f).dual = t.dual.rename f := by
  induction t with
  | const | var => rfl
  | join s t ihs iht | meet s t ihs iht => simp only [rename, dual, ihs, iht]

section Eval

variable [Join γ] [Meet γ] {value : ν' → γ}

theorem Term.eval_rename (t : Term γ ν) : (t.rename f).eval value = t.eval (value ∘ f) := by
  induction t with
  | const | var => rfl
  | join s t ihs iht | meet s t ihs iht => simp only [rename, eval, ihs, iht]

theorem AtomicTerm.eval_rename (t : AtomicTerm γ ν) :
    (t.rename f).toTerm.eval value = t.toTerm.eval (value ∘ f) := by
  cases t <;> rfl

theorem AtomicConstraint.holdsUnder_rename [Imply γ] {r : AtomicConstraint γ ν} :
    (r.rename f).HoldsUnder value ↔ r.HoldsUnder (value ∘ f) := by
  simp only [HoldsUnder, rename, AtomicTerm.eval_rename]

end Eval

theorem Term.boundOf_rename (a b : Clause γ ν) :
    boundOf (a.rename f) (b.rename f) = (boundOf a b).map (AtomicConstraint.rename f) := by
  obtain ⟨_ | _, _ | _⟩ := a <;> obtain ⟨_ | _, _ | _⟩ := b <;> rfl

variable [DecidableEq ν] [DecidableEq ν']

namespace Clause

theorem mergeUnknowns_map {x y z : Option ν} (h : mergeUnknowns x y = .ok z) :
    mergeUnknowns (x.map f) (y.map f) = .ok (z.map f) := by
  rcases mergeUnknowns_ok h with ⟨rfl, hz⟩ | ⟨rfl, hz⟩ | ⟨rfl, hz⟩
  · rw [hz]
    rfl
  · rw [hz]
    cases x <;> rfl
  · rw [hz]
    cases x with
    | none => rfl
    | some x => exact if_pos rfl

theorem combine_rename {op : γ → γ → γ} {a b c : Clause γ ν} (h : combine op a b = .ok c) :
    combine op (a.rename f) (b.rename f) = .ok (c.rename f) := by
  obtain ⟨hconstant, hunknown⟩ := combine_ok h
  unfold combine rename
  rw [mergeUnknowns_map hunknown, hconstant]
  rfl

-- A product, as the pairs of its factors combined one after the other.
theorem product_eq_mapM (op : γ → γ → γ) (as bs : List (Clause γ ν)) :
    product op as bs =
      (as.flatMap fun a => bs.map (Prod.mk a)).mapM fun pair => combine op pair.1 pair.2 := by
  have hpairs : as.flatMap (fun a => bs.map (combine op a)) =
      (as.flatMap fun a => bs.map (Prod.mk a)).map fun pair => combine op pair.1 pair.2 := by
    simp only [List.map_flatMap, List.map_map]
    rfl
  rw [product, hpairs, List.mapM_map]
  rfl

theorem product_rename {op : γ → γ → γ} {as bs cs : List (Clause γ ν)}
    (h : product op as bs = .ok cs) :
    product op (as.map (rename f)) (bs.map (rename f)) = .ok (cs.map (rename f)) := by
  have hpairs : ((as.map (rename f)).flatMap fun a => (bs.map (rename f)).map (Prod.mk a)) =
      (as.flatMap fun a => bs.map (Prod.mk a)).map (Prod.map (rename f) (rename f)) := by
    simp only [List.flatMap_map, List.map_flatMap, List.map_map]
    rfl
  rw [product_eq_mapM, mapM_ok_iff_forall₂] at h ⊢
  rw [hpairs, List.forall₂_map_left_iff, List.forall₂_map_right_iff]
  exact h.imp fun _ _ => combine_rename

theorem joinOfMeets_rename [Meet γ] {t : Term γ ν} {cs : List (Clause γ ν)}
    (h : joinOfMeets t = .ok cs) : joinOfMeets (t.rename f) = .ok (cs.map (rename f)) := by
  induction t generalizing cs with
  | const c =>
    cases h
    rfl
  | var x =>
    cases h
    rfl
  | join s t ihs iht =>
    obtain ⟨as, bs, has, hbs, rfl⟩ := joinOfMeets_join h
    simp only [Term.rename, joinOfMeets, ihs has, iht hbs, List.map_append]
    rfl
  | meet s t ihs iht =>
    obtain ⟨as, bs, has, hbs, hproduct⟩ := joinOfMeets_meet h
    simp only [Term.rename, joinOfMeets, ihs has, iht hbs]
    exact product_rename hproduct

theorem meetOfJoins_rename [Join γ] {t : Term γ ν} {cs : List (Clause γ ν)}
    (h : meetOfJoins t = .ok cs) : meetOfJoins (t.rename f) = .ok (cs.map (rename f)) := by
  rw [meetOfJoins_eq_dual] at h ⊢
  rw [Term.dual_rename]
  exact @joinOfMeets_rename _ _ _ _ _ _ Join.toMeet _ _ h

end Clause

-- Unknowns may become equal but never different ones, so that whatever can be reduced still can be.
theorem Term.reduce_rename [Join γ] [Meet γ] {lower upper : Term γ ν}
    {rs : List (AtomicConstraint γ ν)} (h : reduce lower upper = .ok rs) :
    reduce (lower.rename f) (upper.rename f) = .ok (rs.map (AtomicConstraint.rename f)) := by
  obtain ⟨as, bs, has, hbs, rfl⟩ := AtomicConstraint.reduce_ok h
  have hbounds : (as.map (Clause.rename f)).flatMap
        (fun a => (bs.map (Clause.rename f)).filterMap (boundOf a)) =
      (as.flatMap fun a => bs.filterMap (boundOf a)).map (AtomicConstraint.rename f) := by
    simp only [List.flatMap_map, List.filterMap_map, List.map_flatMap, List.map_filterMap]
    refine List.flatMap_congr fun a _ => List.filterMap_congr fun b _ => ?_
    exact boundOf_rename a b
  unfold reduce
  rw [Clause.joinOfMeets_rename has, Clause.meetOfJoins_rename hbs, ← hbounds]

end LabelInference
