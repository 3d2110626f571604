import LabelInference.Proofs.ConstraintSystem.Confinement
import LabelInference.Proofs.ConstraintSystem.Leniency
import LabelInference.Proofs.Label.Flow
import LabelInference.Proofs.Term.Places
import LabelInference.Proofs.Term.Renaming

namespace LabelInference

universe u v w w'

section Renaming

variable {γ : Type u} {ν ν' : Type v} {ρ : Type w} {ρ' : Type w'}
  [Join γ] [Meet γ] [DecidableEq ν] [DecidableEq ν'] {f : ν → ν'}

-- The second constraint makes the demand of the first on renamed unknowns.
structure Constraint.IsRenamed (f : ν → ν') (c : Constraint γ ν ρ) (c' : Constraint γ ν' ρ') :
    Prop where
  lower : c'.lower = c.lower.rename f
  upper : c'.upper = c.upper.rename f

theorem Constraint.IsRenamed.reduced_eq {c : Constraint γ ν ρ} {c' : Constraint γ ν' ρ'}
    (h : IsRenamed f c c') : c'.reduced = c.reduced.map (AtomicConstraint.rename f) := by
  have hreduces := c'.reduces
  rw [h.lower, h.upper, Term.reduce_rename c.reduces] at hreduces
  exact (Except.ok.inj hreduces).symm

namespace ConstraintSystem

variable {s : ConstraintSystem γ ν ρ} {s' : ConstraintSystem γ ν' ρ'}

theorem rename_mem_reduced
    (h : ∀ c ∈ s.constraints, ∃ c' ∈ s'.constraints, Constraint.IsRenamed f c c')
    {r : AtomicConstraint γ ν} (hr : r ∈ s.reduced) : r.rename f ∈ s'.reduced := by
  obtain ⟨c, hc, hr⟩ := mem_reduced.mp hr
  obtain ⟨c', hc', hrenamed⟩ := h c hc
  refine mem_reduced.mpr ⟨c', hc', ?_⟩
  rw [hrenamed.reduced_eq]
  exact List.mem_map_of_mem hr

variable [Imply γ] [LawfulHeyting γ]

theorem RespectsBounds.comp {value : ν' → γ} (h : s'.RespectsBounds value)
    (htop : Below s'.bounds.top s.bounds.top) (hrename : ∀ r ∈ s.reduced, r.rename f ∈ s'.reduced) :
    s.RespectsBounds (value ∘ f) where
  below_top x := (h.below_top (f x)).trans htop
  holds r hr x hlower := by
    refine AtomicConstraint.holdsUnder_rename.mp (h.holds _ (hrename r hr) (f x) ?_)
    rw [AtomicConstraint.rename, hlower]
    rfl

variable [ChainBound γ] [DecidableEq γ]

-- If all constraints of a system are renamed ones of another, its candidate is above that of the other.
theorem candidate_below_of_rename (hs' : s'.outcome.settled = true)
    (htop : Below s'.bounds.top s.bounds.top)
    (h : ∀ c ∈ s.constraints, ∃ c' ∈ s'.constraints, Constraint.IsRenamed f c c') (x : ν) :
    Below (s'.candidate.get (f x)) (s.candidate.get x) :=
  ((candidate_respectsBounds hs').comp htop fun _ => rename_mem_reduced h).below_candidate x

omit [LawfulHeyting γ] in
theorem mem_violated_iff_of_isRenamed (hcandidate : s'.candidate.get ∘ f = s.candidate.get)
    (horder : s'.order = s.order) {c : Constraint γ ν ρ} {c' : Constraint γ ν' ρ'}
    (hc : c ∈ s.constraints) (hc' : c' ∈ s'.constraints) (hrenamed : Constraint.IsRenamed f c c') :
    c ∈ s.violated ↔ c' ∈ s'.violated := by
  have heval (t : Term γ ν) : s'.candidate.eval (t.rename f) = s.candidate.eval t := by
    unfold Solution.eval
    rw [Term.eval_rename, hcandidate]
  rw [mem_violated, mem_violated, hrenamed.lower, hrenamed.upper, heval, heval, horder]
  exact and_congr_left fun _ => iff_of_true hc hc'

end ConstraintSystem

end Renaming

namespace Label.Component

def other : Component → Component
  | .confidentiality => .integrity
  | .integrity => .confidentiality

theorem other_involutive : Function.Involutive other := by
  intro k
  cases k <;> rfl

-- The place of the constraint on a component among those of one flow.
def position : Component → Nat
  | .confidentiality => 0
  | .integrity => 1

end Label.Component

variable {γ : Type u} {ν : Type v} {ρ : Type w}

def ComponentVariable.swap : ComponentVariable ν → ComponentVariable ν
  | .confidentiality x => .integrity x
  | .integrity x => .confidentiality x

theorem ComponentVariable.swap_involutive :
    Function.Involutive (swap : ComponentVariable ν → ComponentVariable ν) := by
  intro x
  cases x <;> rfl

-- The components are exchanged, and so is what the unknowns stand for.
def LabelTerm.dual (t : LabelTerm γ ν) : LabelTerm γ ν :=
  ⟨t.integrity.rename ComponentVariable.swap, t.confidentiality.rename ComponentVariable.swap⟩

theorem LabelTerm.dual_dual (t : LabelTerm γ ν) : t.dual.dual = t :=
  congrArg₂ Label.mk (Term.rename_involutive ComponentVariable.swap_involutive _)
    (Term.rename_involutive ComponentVariable.swap_involutive _)

-- Exchanging the sides on confidentiality is undone by exchanging source and sink.
theorem LabelTerm.sides_dual (source sink : LabelTerm γ ν) (k : Label.Component) :
    Label.sides sink.dual source.dual k.other =
      ((Label.sides source sink k).1.rename ComponentVariable.swap,
        (Label.sides source sink k).2.rename ComponentVariable.swap) := by
  cases k <;> rfl

namespace FlowScope

def dual : FlowScope → FlowScope
  | .both => .both
  | .only k => .only k.other

theorem dual_dual (scope : FlowScope) : scope.dual.dual = scope := by
  cases scope with
  | both => rfl
  | only k => exact congrArg FlowScope.only (Label.Component.other_involutive k)

theorem other_mem_components_dual {scope : FlowScope} {k : Label.Component}
    (h : k ∈ scope.components) : k.other ∈ scope.dual.components := by
  cases scope with
  | both => cases k <;> simp [dual, components, Label.Component.other]
  | only j =>
    obtain rfl := List.mem_singleton.mp h
    exact List.mem_singleton_self _

end FlowScope

theorem LabelSystem.exists_labelSolution_iff [Join γ] [Meet γ] [Imply γ] [ChainBound γ]
    [DecidableEq γ] [DecidableEq ν] {s : LabelSystem γ ν ρ} :
    (∃ sol, s.labelSolution = .ok sol) ↔ ∀ c, c ∉ s.violated := by
  rw [← ConstraintSystem.exists_solution_iff]
  unfold labelSolution
  cases s.solution <;> simp [Except.map]

namespace LabelFlow

def dual (f : LabelFlow γ ν ρ) : LabelFlow γ ν ρ :=
  ⟨f.scope.dual, f.sink.dual, f.source.dual, f.report⟩

theorem dual_dual (f : LabelFlow γ ν ρ) : f.dual.dual = f := by
  obtain ⟨scope, source, sink, report⟩ := f
  simp only [dual, FlowScope.dual_dual, LabelTerm.dual_dual]

theorem map_dual_dual (fs : List (LabelFlow γ ν ρ)) : (fs.map dual).map dual = fs := by
  rw [List.map_map]
  exact List.map_id'' dual_dual fs

theorem sides_dual (f : LabelFlow γ ν ρ) (k : Label.Component) :
    f.dual.sides k.other =
      ((f.sides k).1.rename ComponentVariable.swap, (f.sides k).2.rename ComponentVariable.swap) :=
  LabelTerm.sides_dual f.source f.sink k

variable [Join γ] [Meet γ] [DecidableEq ν] {b : Bounds γ} {order order' : γ → γ → Bool}
  {f : LabelFlow γ ν ρ} {fs : List (LabelFlow γ ν ρ)} {k : Label.Component}
  {c : LabelConstraint γ ν ρ} {s s' : LabelSystem γ ν ρ}

theorem exists_constraint_iff :
    (∃ c, f.constraint b k = .ok c) ↔ ∃ rs, Term.reduce (f.sides k).1 (f.sides k).2 = .ok rs := by
  cases k with
  | confidentiality => exact Constraint.exists_below_iff_exists_reduce
  | integrity => exact Constraint.exists_below_iff_exists_reduce

theorem isRenamed_of_constraint {c' : LabelConstraint γ ν ρ} (h : f.constraint b k = .ok c)
    (h' : f.dual.constraint b k.other = .ok c') :
    Constraint.IsRenamed ComponentVariable.swap c c' := by
  obtain ⟨hlower, hupper⟩ := constraint_ok h
  obtain ⟨hlower', hupper'⟩ := constraint_ok h'
  rw [sides_dual] at hlower' hupper'
  exact ⟨by rw [hlower', hlower], by rw [hupper', hupper]⟩

theorem exists_constraint_dual (h : f.constraint b k = .ok c) :
    ∃ c', f.dual.constraint b k.other = .ok c' := by
  obtain ⟨rs, hrs⟩ := exists_constraint_iff.mp ⟨c, h⟩
  refine exists_constraint_iff.mpr ⟨rs.map (AtomicConstraint.rename ComponentVariable.swap), ?_⟩
  rw [sides_dual]
  exact Term.reduce_rename hrs

theorem exists_system_dual (h : system b order fs = .ok s) :
    ∃ s', system b order (fs.map dual) = .ok s' := by
  refine exists_system_iff.mpr fun g hg k hk => ?_
  obtain ⟨f, hf, rfl⟩ := List.mem_map.mp hg
  have hmem := FlowScope.other_mem_components_dual hk
  rw [dual, FlowScope.dual_dual] at hmem
  obtain ⟨c, hc⟩ := exists_system_iff.mp ⟨s, h⟩ f hf k.other hmem
  have hdual := exists_constraint_dual hc
  rwa [Label.Component.other_involutive k] at hdual

-- The constraints of a system in order: those of one flow after those of the other.
theorem map_ok_constraints (h : system b order fs = .ok s) :
    s.constraints.map .ok = fs.flatMap fun f => f.scope.components.map (f.constraint b) := by
  obtain ⟨css, hcss, rfl⟩ := system_ok h
  have hflow : ∀ (f : LabelFlow γ ν ρ) (cs : List (LabelConstraint γ ν ρ)),
      f.constraints b = .ok cs → cs.map .ok = f.scope.components.map (f.constraint b) := by
    intro f cs hcs
    rw [constraints_eq_mapM] at hcs
    exact (mapM_ok_iff.mp hcs).symm
  rw [List.map_flatten, map_of_mapM_ok hflow hcss, List.flatMap_def]

-- If all flows are asked of both components, there are two constraints for each of them.
theorem getElem?_constraints (h : system b order fs = .ok s) (hboth : ∀ f ∈ fs, f.scope = .both)
    {i : Nat} (hf : fs[i]? = some f) (k : Label.Component) :
    ∃ c, s.constraints[2 * i + k.position]? = some c ∧ f.constraint b k = .ok c := by
  have hlength : ∀ g ∈ fs, (g.scope.components.map (g.constraint b)).length = 2 := by
    intro g hg
    rw [hboth g hg]
    rfl
  have hposition : k.position < 2 := by cases k <;> decide
  have hplace : (s.constraints.map Except.ok)[2 * i + k.position]? = some (f.constraint b k) := by
    rw [map_ok_constraints h, getElem?_flatMap_of_length hlength hposition hf,
      hboth f (List.mem_of_getElem? hf)]
    cases k <;> rfl
  rw [List.getElem?_map, Option.map_eq_some_iff] at hplace
  obtain ⟨c, hc, hconstraint⟩ := hplace
  exact ⟨c, hc, hconstraint.symm⟩

section Dual

variable (h : system b order fs = .ok s) (h' : system b order' (fs.map dual) = .ok s')
include h h'

theorem exists_isRenamed (hc : c ∈ s.constraints) :
    ∃ c' ∈ s'.constraints, Constraint.IsRenamed ComponentVariable.swap c c' := by
  obtain ⟨f, hf, k, hk, hc⟩ := (mem_constraints h).mp hc
  obtain ⟨c', hc'⟩ := exists_constraint_dual hc
  refine ⟨c', (mem_constraints h').mpr ⟨f.dual, List.mem_map_of_mem hf, k.other, ?_, hc'⟩,
    isRenamed_of_constraint hc hc'⟩
  exact FlowScope.other_mem_components_dual hk

variable [Imply γ] [ChainBound γ] [DecidableEq γ] [LawfulHeyting γ] [LawfulChainBound γ]

theorem candidate_swap_below (x : ComponentVariable ν) :
    Below (s'.candidate.get x.swap) (s.candidate.get x) := by
  refine ConstraintSystem.candidate_below_of_rename (ConstraintSystem.outcome_settled s') ?_
    (fun c => exists_isRenamed h h') x
  rw [bounds_of_system h, bounds_of_system h']
  exact Below.refl _

theorem candidate_dual : s'.candidate.get ∘ ComponentVariable.swap = s.candidate.get := by
  funext x
  refine Below.antisymm (candidate_swap_below h h' x) ?_
  have hdouble : system b order ((fs.map dual).map dual) = .ok s := by rwa [map_dual_dual]
  have hbelow := candidate_swap_below h' hdouble x.swap
  rwa [ComponentVariable.swap_involutive x] at hbelow

theorem labelCandidate_dual (x : ν) :
    s'.labelCandidate.get x = (s.labelCandidate.get x).swap := by
  have hcandidate := congrFun (candidate_dual h h')
  exact congrArg₂ Label.mk (hcandidate (.integrity x)) (hcandidate (.confidentiality x))

end Dual

section Violated

variable [Imply γ] [ChainBound γ] [DecidableEq γ] [LawfulHeyting γ] [LawfulChainBound γ]
variable (h : system b order fs = .ok s) (h' : system b order (fs.map dual) = .ok s')
include h h'

theorem mem_violated_iff_dual {c' : LabelConstraint γ ν ρ} (hc : c ∈ s.constraints)
    (hc' : c' ∈ s'.constraints) (hrenamed : Constraint.IsRenamed ComponentVariable.swap c c') :
    c ∈ s.violated ↔ c' ∈ s'.violated := by
  have horder : s'.order = s.order := by rw [order_of_system h, order_of_system h']
  exact ConstraintSystem.mem_violated_iff_of_isRenamed (candidate_dual h h') horder hc hc' hrenamed

theorem exists_labelSolution_of_dual (hsol : ∃ sol, s'.labelSolution = .ok sol) :
    ∃ sol, s.labelSolution = .ok sol := by
  rw [LabelSystem.exists_labelSolution_iff] at hsol ⊢
  intro c hviolated
  have hc := (ConstraintSystem.mem_violated.mp hviolated).1
  obtain ⟨c', hc', hrenamed⟩ := exists_isRenamed h h' hc
  exact hsol c' ((mem_violated_iff_dual h h' hc hc' hrenamed).mp hviolated)

theorem exists_labelSolution_iff_dual :
    (∃ sol, s.labelSolution = .ok sol) ↔ ∃ sol, s'.labelSolution = .ok sol := by
  have hdouble : system b order ((fs.map dual).map dual) = .ok s := by rwa [map_dual_dual]
  exact ⟨exists_labelSolution_of_dual h' hdouble, exists_labelSolution_of_dual h h'⟩

end Violated

end LabelFlow

end LabelInference
