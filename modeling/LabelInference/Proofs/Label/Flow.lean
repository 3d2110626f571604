import LabelInference.Label.Constraint
import LabelInference.Proofs.ConstraintSystem.Solution

namespace LabelInference

universe u v w

namespace Label

variable {γ : Type u}

inductive Component where
  | confidentiality
  | integrity
  deriving DecidableEq

def component (l : Label γ) : Component → γ
  | .confidentiality => l.confidentiality
  | .integrity => l.integrity

-- What has to be below what for a flow from `l` to `k`.
def sides (l k : Label γ) : Component → γ × γ
  | .confidentiality => (k.confidentiality, l.confidentiality)
  | .integrity => (l.integrity, k.integrity)

def flowsToOn (order : γ → γ → Bool) (l k : Label γ) (component : Component) : Bool :=
  order (sides l k component).1 (sides l k component).2

end Label

namespace ComponentVariable

variable {γ : Type u} {ν : Type v}

def component : ComponentVariable ν → Label.Component
  | .confidentiality _ => .confidentiality
  | .integrity _ => .integrity

def valueIn (labels : ν → Label γ) (x : ComponentVariable ν) : γ :=
  (labels x.base).component x.component

end ComponentVariable

namespace LabelTerm

variable {γ : Type u} {ν : Type v} [Join γ] [Meet γ]

def eval (labels : ν → Label γ) (t : LabelTerm γ ν) : Label γ :=
  ⟨t.confidentiality.eval (ComponentVariable.valueIn labels),
    t.integrity.eval (ComponentVariable.valueIn labels)⟩

variable (labels : ν → Label γ)

@[simp] theorem eval_ofLabel (l : Label γ) : eval labels (ofLabel l) = l := rfl

@[simp] theorem eval_ofVariable (x : ν) : eval labels (ofVariable x) = labels x := rfl

@[simp] theorem eval_join (t u : LabelTerm γ ν) :
    eval labels (join t u) = join (eval labels t) (eval labels u) := rfl

@[simp] theorem eval_meet (t u : LabelTerm γ ν) :
    eval labels (meet t u) = meet (eval labels t) (eval labels u) := rfl

@[simp] theorem eval_conj (t u : LabelTerm γ ν) :
    eval labels (t.conj u) = (eval labels t).conj (eval labels u) := rfl

@[simp] theorem eval_disj (t u : LabelTerm γ ν) :
    eval labels (t.disj u) = (eval labels t).disj (eval labels u) := rfl

@[simp] theorem eval_swap (t : LabelTerm γ ν) : eval labels t.swap = (eval labels t).swap := rfl

@[simp] theorem eval_confidentialityOnly (b : Bounds γ) (t : LabelTerm γ ν) :
    eval labels (t.confidentialityOnly (Term.bounds b)) = (eval labels t).confidentialityOnly b := rfl

@[simp] theorem eval_integrityOnly (b : Bounds γ) (t : LabelTerm γ ν) :
    eval labels (t.integrityOnly (Term.bounds b)) = (eval labels t).integrityOnly b := rfl

theorem sides_eval (t u : LabelTerm γ ν) (k : Label.Component) :
    Label.sides (eval labels t) (eval labels u) k =
      ((Label.sides t u k).1.eval (ComponentVariable.valueIn labels),
        (Label.sides t u k).2.eval (ComponentVariable.valueIn labels)) := by
  cases k <;> rfl

end LabelTerm

theorem LabelSolution.valueIn_get {γ : Type u} {ν : Type v} [DecidableEq ν] (s : LabelSolution γ ν) :
    ComponentVariable.valueIn s.get = s.components.get := by
  funext x
  cases x <;> rfl

inductive FlowScope where
  | both
  | only (component : Label.Component)
  deriving DecidableEq

def FlowScope.components : FlowScope → List Label.Component
  | .both => [.confidentiality, .integrity]
  | .only k => [k]

structure LabelFlow (γ : Type u) (ν : Type v) (ρ : Type w) where
  scope : FlowScope
  source : LabelTerm γ ν
  sink : LabelTerm γ ν
  report : Label γ → Label γ → ρ

variable {γ : Type u} {ν : Type v} {ρ : Type w} [Join γ] [Meet γ] [DecidableEq ν]

theorem Constraint.below_ok {lower upper : Term γ ν} {report : γ → γ → ρ} {c : Constraint γ ν ρ}
    (h : Constraint.below lower upper report = .ok c) : c.lower = lower ∧ c.upper = upper := by
  unfold Constraint.below at h
  split at h
  · cases h
    exact ⟨rfl, rfl⟩
  · cases h

namespace LabelFlow

def constraint (b : Bounds γ) (f : LabelFlow γ ν ρ) :
    Label.Component → Except (UnsupportedTerm γ (ComponentVariable ν)) (LabelConstraint γ ν ρ)
  | .confidentiality => LabelTerm.confidentialityFlow b f.source f.sink f.report
  | .integrity => LabelTerm.integrityFlow b f.source f.sink f.report

def constraints (b : Bounds γ) (f : LabelFlow γ ν ρ) :
    Except (UnsupportedTerm γ (ComponentVariable ν)) (List (LabelConstraint γ ν ρ)) :=
  match f.scope with
  | .both => LabelTerm.flow b f.source f.sink f.report
  | .only k => (f.constraint b k).map ([·])

def system (b : Bounds γ) (order : γ → γ → Bool) (fs : List (LabelFlow γ ν ρ)) :
    Except (UnsupportedTerm γ (ComponentVariable ν)) (LabelSystem γ ν ρ) := do
  let constraints ← fs.mapM (constraints b)
  return ⟨constraints.flatten, b, order⟩

-- Whether the flow is allowed when the unknown labels are the given ones.
def holds (order : γ → γ → Bool) (labels : ν → Label γ) (f : LabelFlow γ ν ρ) : Bool :=
  let source := f.source.eval labels
  let sink := f.sink.eval labels
  match f.scope with
  | .both => source.flowsTo order sink
  | .only k => source.flowsToOn order sink k

def sides (f : LabelFlow γ ν ρ) :
    Label.Component → Term γ (ComponentVariable ν) × Term γ (ComponentVariable ν) :=
  Label.sides f.source f.sink

variable {b : Bounds γ} {order : γ → γ → Bool} {f : LabelFlow γ ν ρ} {fs : List (LabelFlow γ ν ρ)}
  {s : LabelSystem γ ν ρ} {labels : ν → Label γ} {k : Label.Component} {c : LabelConstraint γ ν ρ}

theorem constraint_ok (h : f.constraint b k = .ok c) :
    c.lower = (f.sides k).1 ∧ c.upper = (f.sides k).2 := by
  cases k with
  | confidentiality => exact Constraint.below_ok h
  | integrity => exact Constraint.below_ok h

-- A flow of both components is asked of one and then of the other.
theorem constraints_eq_mapM : f.constraints b = f.scope.components.mapM (f.constraint b) := by
  unfold constraints
  cases f.scope with
  | both => simp [FlowScope.components, LabelTerm.flow, constraint, List.mapM_cons]
  | only k =>
    cases hk : f.constraint b k with
    | error e => simp [FlowScope.components, List.mapM_cons, hk, Except.map, bind, Except.bind]
    | ok c => simp [FlowScope.components, List.mapM_cons, hk, Except.map]

theorem system_ok (h : system b order fs = .ok s) :
    ∃ css, fs.mapM (constraints b) = .ok css ∧ s = ⟨css.flatten, b, order⟩ := by
  obtain ⟨css, hcss, h⟩ := bind_ok h
  cases h
  exact ⟨css, hcss, rfl⟩

theorem bounds_of_system (h : system b order fs = .ok s) : s.bounds = b := by
  obtain ⟨css, _, rfl⟩ := system_ok h
  rfl

theorem order_of_system (h : system b order fs = .ok s) : s.order = order := by
  obtain ⟨css, _, rfl⟩ := system_ok h
  rfl

theorem exists_system_iff :
    (∃ s, system b order fs = .ok s) ↔
      ∀ f ∈ fs, ∀ k ∈ f.scope.components, ∃ c, f.constraint b k = .ok c := by
  have hmapM : (∃ css, fs.mapM (constraints b) = .ok css) ↔
      ∀ f ∈ fs, ∀ k ∈ f.scope.components, ∃ c, f.constraint b k = .ok c := by
    rw [exists_mapM_ok_iff]
    refine forall₂_congr fun f _ => ?_
    rw [constraints_eq_mapM, exists_mapM_ok_iff]
  rw [← hmapM]
  constructor
  · rintro ⟨s, h⟩
    obtain ⟨css, hcss, _⟩ := system_ok h
    exact ⟨css, hcss⟩
  · rintro ⟨css, hcss⟩
    refine ⟨⟨css.flatten, b, order⟩, ?_⟩
    unfold system
    rw [hcss]
    rfl

theorem mem_constraints (h : system b order fs = .ok s) :
    c ∈ s.constraints ↔ ∃ f ∈ fs, ∃ k ∈ f.scope.components, f.constraint b k = .ok c := by
  obtain ⟨css, hcss, rfl⟩ := system_ok h
  rw [List.mem_flatten]
  constructor
  · rintro ⟨cs, hcs, hc⟩
    obtain ⟨f, hf, hfcs⟩ := (mem_of_mapM_ok hcss).mp hcs
    rw [constraints_eq_mapM] at hfcs
    exact ⟨f, hf, (mem_of_mapM_ok hfcs).mp hc⟩
  · rintro ⟨f, hf, hc⟩
    obtain ⟨cs, hfcs⟩ := exists_mapM_ok_iff.mp ⟨css, hcss⟩ f hf
    refine ⟨cs, (mem_of_mapM_ok hcss).mpr ⟨f, hf, hfcs⟩, ?_⟩
    rw [constraints_eq_mapM] at hfcs
    exact (mem_of_mapM_ok hfcs).mpr hc

-- What holds of both sides of every constraint holds of both sides of every flow on each component
-- that it is asked of.
theorem forall_constraints_iff (h : system b order fs = .ok s)
    (R : Term γ (ComponentVariable ν) → Term γ (ComponentVariable ν) → Prop) :
    (∀ c ∈ s.constraints, R c.lower c.upper) ↔
      ∀ f ∈ fs, ∀ k ∈ f.scope.components, R (f.sides k).1 (f.sides k).2 := by
  constructor
  · intro hR f hf k hk
    obtain ⟨c, hc⟩ := exists_system_iff.mp ⟨s, h⟩ f hf k hk
    obtain ⟨hlower, hupper⟩ := constraint_ok hc
    rw [← hlower, ← hupper]
    exact hR c ((mem_constraints h).mpr ⟨f, hf, k, hk, hc⟩)
  · intro hR c hc
    obtain ⟨f, hf, k, hk, hc⟩ := (mem_constraints h).mp hc
    obtain ⟨hlower, hupper⟩ := constraint_ok hc
    rw [hlower, hupper]
    exact hR f hf k hk

theorem exists_constraints_iff (h : system b order fs = .ok s)
    (R : Term γ (ComponentVariable ν) → Term γ (ComponentVariable ν) → Prop) :
    (∃ c ∈ s.constraints, R c.lower c.upper) ↔
      ∃ f ∈ fs, ∃ k ∈ f.scope.components, R (f.sides k).1 (f.sides k).2 := by
  have hnone := forall_constraints_iff h fun lower upper => ¬R lower upper
  have hiff := not_congr hnone
  push Not at hiff
  exact hiff

omit [DecidableEq ν] in
theorem holds_iff : f.holds order labels = true ↔ ∀ k ∈ f.scope.components,
    order ((f.sides k).1.eval (ComponentVariable.valueIn labels))
      ((f.sides k).2.eval (ComponentVariable.valueIn labels)) = true := by
  unfold holds
  cases f.scope with
  | both =>
    simp [FlowScope.components, Label.flowsTo, LabelTerm.eval, sides, Label.sides]
  | only k =>
    simp [FlowScope.components, Label.flowsToOn, LabelTerm.sides_eval, sides]

-- The constraints say of an assignment what the flows say of the labels in it.
theorem forall_holds_iff (h : system b order fs = .ok s) :
    (∀ f ∈ fs, f.holds order labels = true) ↔ ∀ c ∈ s.constraints,
      order (c.lower.eval (ComponentVariable.valueIn labels))
        (c.upper.eval (ComponentVariable.valueIn labels)) = true := by
  rw [forall_constraints_iff h fun lower upper =>
    order (lower.eval (ComponentVariable.valueIn labels))
      (upper.eval (ComponentVariable.valueIn labels)) = true]
  exact forall₂_congr fun f _ => holds_iff

theorem labelSolution_ok_iff [Imply γ] [ChainBound γ] [DecidableEq γ]
    (h : system b order fs = .ok s) {sol : LabelSolution γ ν} :
    s.labelSolution = .ok sol ↔
      sol = s.labelCandidate ∧ ∀ f ∈ fs, f.holds order sol.get = true := by
  have hcomponents : s.labelSolution = .ok sol ↔ s.solution = .ok sol.components := by
    obtain ⟨components⟩ := sol
    unfold LabelSystem.labelSolution
    cases s.solution <;> simp [Except.map]
  rw [hcomponents, ConstraintSystem.solution_eq_ok_iff, forall_holds_iff h,
    LabelSolution.valueIn_get, order_of_system h]
  obtain ⟨components⟩ := sol
  simp only [LabelSystem.labelCandidate, LabelSolution.mk.injEq]
  rfl

end LabelFlow

end LabelInference
