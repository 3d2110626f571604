import LabelInference.Proofs.FreeLattice.TrustOrder
import LabelInference.Proofs.Label.Flow
import Mathlib.Computability.Primrec.List
import Mathlib.Data.Fin.Tuple.Take
import Mathlib.Data.List.Permutation

-- The imported Mathlib modules have the equations of `List.lookup`, `Fin.cast` and `Prod.snd` by which `cbv` evaluates a run.

namespace LabelInference

universe u v w

namespace Label

variable {γ : Type u}

def project (b : Bounds γ) (l : Label γ) : Component → Label γ
  | .confidentiality => l.confidentialityOnly b
  | .integrity => l.integrityOnly b

-- The projections agree on the other component.
theorem flowsTo_project {order : γ → γ → Bool} (hrefl : ∀ a, order a a = true) (b : Bounds γ)
    (l k : Label γ) (component : Component) :
    (l.project b component).flowsTo order (k.project b component) =
      l.flowsToOn order k component := by
  cases component with
  | confidentiality => simp [project, confidentialityOnly, flowsTo, flowsToOn, sides, hrefl]
  | integrity => simp [project, integrityOnly, flowsTo, flowsToOn, sides, hrefl]

end Label

theorem LabelSolution.sides_eval {γ : Type u} {ν : Type v} [DecidableEq ν] [Join γ] [Meet γ]
    (sol : LabelSolution γ ν) (t u : LabelTerm γ ν) (k : Label.Component) :
    Label.sides (sol.eval t) (sol.eval u) k =
      (sol.components.eval (Label.sides t u k).1, sol.components.eval (Label.sides t u k).2) := by
  cases k <;> rfl

variable {γ : Type u} {ν : Type v} {ρ : Type w} [Join γ] [Meet γ]

section Constraint

variable [DecidableEq ν] {lower upper : Term γ ν} {report : γ → γ → ρ} {c : Constraint γ ν ρ}

theorem Constraint.report_of_below (h : Constraint.below lower upper report = .ok c) :
    c.report = report := by
  unfold Constraint.below at h
  split at h
  · cases h
    rfl
  · cases h

-- What a constraint reports under an assignment that violates it.
def Constraint.violation? (order : γ → γ → Bool) (sol : Solution γ ν) (c : Constraint γ ν ρ) :
    Option ρ :=
  let lower := sol.eval c.lower
  let upper := sol.eval c.upper
  if order lower upper then none else some (c.report lower upper)

theorem ConstraintSystem.violationsUnder_eq_filterMap (s : ConstraintSystem γ ν ρ)
    (sol : Solution γ ν) :
    s.violationsUnder sol = s.constraints.filterMap (Constraint.violation? s.order sol) := rfl

end Constraint

namespace LabelFlow

variable [DecidableEq ν]

-- Whether the flow fails on the component.
def failsOn (order : γ → γ → Bool) (sol : LabelSolution γ ν) (f : LabelFlow γ ν ρ)
    (k : Label.Component) : Bool :=
  !(sol.eval f.source).flowsToOn order (sol.eval f.sink) k

-- What is reported if it does.
def reportOn (b : Bounds γ) (sol : LabelSolution γ ν) (f : LabelFlow γ ν ρ) (k : Label.Component) : ρ :=
  f.report ((sol.eval f.source).project b k) ((sol.eval f.sink).project b k)

variable {b : Bounds γ} {order : γ → γ → Bool} {f : LabelFlow γ ν ρ} {k : Label.Component}
  {c : LabelConstraint γ ν ρ}

-- A constraint takes its values in the order of its sides and passes on source before sink.
theorem report_of_constraint (h : f.constraint b k = .ok c) (source sink : Label γ) :
    c.report (source.sides sink k).1 (source.sides sink k).2 =
      f.report (source.project b k) (sink.project b k) := by
  cases k with
  | confidentiality =>
    rw [Constraint.report_of_below h]
    rfl
  | integrity =>
    rw [Constraint.report_of_below h]
    rfl

theorem violation?_of_constraint (sol : LabelSolution γ ν) (h : f.constraint b k = .ok c) :
    c.violation? order sol.components =
      if f.failsOn order sol k then some (f.reportOn b sol k) else none := by
  obtain ⟨hlower, hupper⟩ := constraint_ok h
  have hsides := sol.sides_eval f.source f.sink k
  have hreport := report_of_constraint h (sol.eval f.source) (sol.eval f.sink)
  rw [hsides] at hreport
  unfold Constraint.violation? failsOn reportOn Label.flowsToOn
  rw [hlower, hupper, ← hreport, hsides]
  dsimp only [sides]
  cases order _ _ <;> rfl

-- The constraints of one flow report it on the components that it fails on, in their order.
theorem filterMap_violation?_constraints (sol : LabelSolution γ ν) {cs : List (LabelConstraint γ ν ρ)}
    (h : f.constraints b = .ok cs) :
    cs.filterMap (Constraint.violation? order sol.components) =
      (f.scope.components.filter (f.failsOn order sol)).map (f.reportOn b sol) := by
  rw [constraints_eq_mapM] at h
  rw [filterMap_of_mapM_ok (fun k c hc => violation?_of_constraint sol hc) h, ← List.filterMap_eq_map,
    List.filterMap_filter]
  rfl

theorem violationsUnder_eq_flatMap (t : Bounds γ) (sol : LabelSolution γ ν)
    {fs : List (LabelFlow γ ν ρ)} {css : List (List (LabelConstraint γ ν ρ))}
    (h : fs.mapM (constraints b) = .ok css) :
    (ConstraintSystem.mk css.flatten t order).violationsUnder sol.components =
      fs.flatMap fun f => (f.scope.components.filter (f.failsOn order sol)).map (f.reportOn b sol) := by
  rw [ConstraintSystem.violationsUnder_eq_filterMap, List.filterMap_flatten,
    map_of_mapM_ok (fun f cs hcs => filterMap_violation?_constraints sol hcs) h, List.flatMap_def]

variable {α : Type u} [Ordered α]

-- Each flow is reported once for each component on which the labels that are left do not flow, in
-- order, with both labels projected on the component; the projections do not flow either. The first
-- report is the error, and there is none without reports.
theorem violations_eq_flatMap_projected (b t : Bounds (FreeLattice α))
    {order : FreeLattice α → FreeLattice α → Bool} (horder : FreeLattice.IsTrustOrder order)
    (fs : List (LabelFlow (FreeLattice α) ν ρ))
    (css : List (List (LabelConstraint (FreeLattice α) ν ρ)))
    (h : fs.mapM (constraints b) = .ok css) :
    let s : LabelSystem (FreeLattice α) ν ρ := ⟨css.flatten, t, order⟩
    let source (f : LabelFlow (FreeLattice α) ν ρ) := s.labelCandidate.eval f.source
    let sink (f : LabelFlow (FreeLattice α) ν ρ) := s.labelCandidate.eval f.sink
    s.violations = (fs.flatMap fun f =>
        (f.scope.components.filter fun k => !(source f).flowsToOn order (sink f) k).map fun k =>
          f.report ((source f).project b k) ((sink f).project b k)) ∧
      (∀ f ∈ fs, ∀ k ∈ f.scope.components,
        ((source f).project b k).flowsTo order ((sink f).project b k) =
          (source f).flowsToOn order (sink f) k) ∧
      ∀ report, s.solution = .error report ↔ s.violations.head? = some report := by
  intro s source sink
  refine ⟨violationsUnder_eq_flatMap t s.labelCandidate h, fun f _ k _ => ?_,
    fun report => s.solution_eq_error_iff⟩
  exact Label.flowsTo_project horder.isCoarsening.refl b (source f) (sink f) k

-- What is left for the unknown is too little on integrity for the first flow to reach it, and too much on
-- confidentiality for the second one to leave it.
theorem violations_eq_flatMap_projected_both_components :
    let label (confidentiality integrity : Int) : Label (FreeLattice Int) :=
      ⟨.atom confidentiality, .atom integrity⟩
    let fs : List (LabelFlow (FreeLattice Int) Unit (Nat × Label _ × Label _)) :=
      [⟨.both, .ofLabel (label 0 1), .ofVariable (), fun source sink => (0, source, sink)⟩,
        ⟨.both, .ofVariable (), .ofLabel (label 2 3), fun source sink => (1, source, sink)⟩]
    let reports : List (Nat × Label (FreeLattice Int) × Label (FreeLattice Int)) :=
      [(0, ⟨.top, .atom 1⟩, ⟨.top, .atom 3⟩), (1, ⟨.atom 0, .top⟩, ⟨.atom 2, .top⟩)]
    ∃ css, fs.mapM (constraints FreeLattice.bounds) = .ok css ∧
      FreeLattice.IsTrustOrder (α := Int) isBelow ∧
      (ConstraintSystem.mk css.flatten FreeLattice.bounds isBelow).violations = reports ∧
      (ConstraintSystem.mk css.flatten FreeLattice.bounds isBelow).solution =
        .error (0, ⟨.top, .atom 1⟩, ⟨.top, .atom 3⟩) := by
  intro label fs reports
  obtain ⟨css, hcss⟩ : ∃ css, fs.mapM (constraints FreeLattice.bounds) = .ok css := ⟨_, rfl⟩
  have horder : FreeLattice.IsTrustOrder (α := Int) isBelow := .inl rfl
  obtain ⟨hviolations, _, herror⟩ :=
    violations_eq_flatMap_projected FreeLattice.bounds FreeLattice.bounds horder fs css hcss
  have hreports : (ConstraintSystem.mk css.flatten FreeLattice.bounds isBelow).violations = reports := by
    refine hviolations.trans ?_
    cases hcss
    cbv
  exact ⟨css, hcss, horder, hreports, (herror _).mpr (congrArg List.head? hreports)⟩

end LabelFlow

end LabelInference
