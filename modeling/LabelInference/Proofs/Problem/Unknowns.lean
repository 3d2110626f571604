import LabelInference.CommandLine.Response
import LabelInference.Proofs.ConstraintSystem.Unknowns
import LabelInference.Proofs.Problem.Acceptance
import LabelInference.Proofs.Problem.Reading

namespace LabelInference

universe u v w

theorem ComponentVariable.base_ofBase {ν : Type} (c : Label.Component) (x : ν) :
    (ofBase c x).base = x := by
  cases c <;> rfl

def FlowConstraint.Mentions (c : FlowConstraint) (x : String) : Prop :=
  c.source.Mentions x ∨ c.sink.Mentions x

-- On each component a flow has the unknowns of its two sides, whichever of them is the lower one.
theorem FlowConstraint.mem_unknowns_sides_iff {c : FlowConstraint} {k : Label.Component}
    {y : ComponentVariable String} :
    (y ∈ (Label.sides c.source.term c.sink.term k).1.unknowns ∨
        y ∈ (Label.sides c.source.term c.sink.term k).2.unknowns) ↔
      ∃ x, c.Mentions x ∧ y = .ofBase k x := by
  have hsource := LabelExpr.mem_unknowns_iff (c := k) (e := c.source) (x := y)
  have hsink := LabelExpr.mem_unknowns_iff (c := k) (e := c.sink) (x := y)
  have hsides : (∃ x, c.Mentions x ∧ y = .ofBase k x) ↔
      y ∈ (c.source.term.component k).unknowns ∨ y ∈ (c.sink.term.component k).unknowns := by
    rw [hsource, hsink, ← exists_or]
    exact exists_congr fun x => or_and_right
  rw [hsides]
  cases k with
  | confidentiality => exact or_comm
  | integrity => exact Iff.rfl

namespace Problem

open CommandLine

variable {p : Problem} {s : LabelSystem Principal String Violation}
  {sol : LabelSolution Principal String}

theorem exists_flows_iff {P : LabelFlow Principal String Violation → Prop}
    {Q : FlowConstraint → Prop}
    (h : ∀ c index, P ⟨.both, c.source.term, c.sink.term, Violation.mk index c.reason⟩ ↔ Q c) :
    (∃ f ∈ p.flows, P f) ↔ ∃ c ∈ p.constraints, Q c := by
  constructor
  · rintro ⟨f, hf, hP⟩
    obtain ⟨⟨c, index⟩, hmem, rfl⟩ := List.mem_map.mp hf
    exact ⟨c, List.mem_of_getElem? (List.mem_zipIdx_iff_getElem?.mp hmem), (h c index).mp hP⟩
  · rintro ⟨c, hc, hQ⟩
    obtain ⟨index, hindex, rfl⟩ := List.mem_iff_getElem.mp hc
    have hmem : (p.constraints[index], index) ∈ p.constraints.zipIdx :=
      List.mem_zipIdx_iff_getElem?.mpr (List.getElem?_eq_getElem hindex)
    exact ⟨_, List.mem_map_of_mem hmem, (h _ index).mpr hQ⟩

theorem mem_candidate_iff (h : p.system = .ok s) {y : ComponentVariable String} :
    y ∈ s.candidate.values.map Prod.fst ↔
      ∃ c ∈ p.constraints, ∃ k x, c.Mentions x ∧ y = .ofBase k x := by
  rw [ConstraintSystem.mem_candidate_iff,
    LabelFlow.exists_constraints_iff (flows_system h) fun lower upper =>
      y ∈ lower.unknowns ∨ y ∈ upper.unknowns]
  refine exists_flows_iff fun c index => exists_congr fun k => ?_
  have hboth : k ∈ FlowScope.both.components := by
    cases k <;> simp [FlowScope.components]
  exact (and_iff_right hboth).trans FlowConstraint.mem_unknowns_sides_iff

theorem mem_unknowns_labelCandidate (h : p.system = .ok s) {x : String} :
    x ∈ s.labelCandidate.unknowns ↔ ∃ c ∈ p.constraints, c.Mentions x := by
  have hbase : x ∈ s.labelCandidate.unknowns ↔
      ∃ y ∈ s.candidate.values.map Prod.fst, y.base = x := by
    rw [← List.mem_map, List.map_map, LabelSolution.unknowns, List.mem_eraseDups]
    rfl
  rw [hbase]
  constructor
  · rintro ⟨y, hy, rfl⟩
    obtain ⟨c, hc, k, x, hx, rfl⟩ := (mem_candidate_iff h).mp hy
    rw [ComponentVariable.base_ofBase]
    exact ⟨c, hc, hx⟩
  · rintro ⟨c, hc, hx⟩
    refine ⟨.ofBase .integrity x, (mem_candidate_iff h).mpr ⟨c, hc, _, x, hx, rfl⟩, ?_⟩
    exact ComponentVariable.base_ofBase _ x

theorem plan_solve (h : p.system = .ok s) {path document : String}
    (hparse : parse path document = .ok p) (format : OutputFormat) (allViolations : Bool)
    (drawing : Option String) :
    (plan (.solve path format allViolations drawing) (some document)).response =
      solved s format allViolations := by
  have hload : load path (some document) = .ok s := by
    change ((parse path document).mapError FileError.message >>= fun problem =>
      problem.system.mapError IllegalConstraint.message) = .ok s
    rw [mapError_of_ok hparse]
    exact mapError_of_ok h
  simp only [plan, hload]

theorem solved_of_solution (h : s.labelSolution = .ok sol) (format : OutputFormat)
    (allViolations : Bool) : solved s format allViolations = satisfied format sol := by
  unfold solved
  rw [h]

theorem solution_eq_labelCandidate (h : p.system = .ok s) (hsol : s.labelSolution = .ok sol) :
    sol = s.labelCandidate :=
  ((LabelFlow.labelSolution_ok_iff (flows_system h)).mp hsol).1

-- The report has a line or a member for each of the unknowns.
theorem exists_members (sol : LabelSolution Principal String) :
    ∃ members : List (String × Json), (members.map Prod.fst).Perm sol.unknowns ∧
      Report.solutionJson sol = .object [("labels", .object members), ("status", .string "ok")] := by
  refine ⟨_, ?_, rfl⟩
  rw [List.map_map]
  show (sol.unknowns.mergeSort.map id).Perm _
  rw [List.map_id]
  exact List.mergeSort_perm _ _

-- No unknown is lost or invented between the terms of a constraint, its reduction, the graph, the
-- candidate and the labels that are put out for a problem.
theorem unknowns_exact {γ : Type u} {ν : Type v} {ρ : Type w} [Join γ] [Meet γ] [Imply γ]
    [ChainBound γ] [DecidableEq γ] [DecidableEq ν] :
    (∀ (c : Constraint γ ν ρ) (x : ν),
      ((∃ r ∈ c.reduced, r.lower = .var x) ↔ x ∈ c.lower.unknowns) ∧
        ((∃ r ∈ c.reduced, r.upper = .var x) ↔ x ∈ c.upper.unknowns)) ∧
    (∀ s : ConstraintSystem γ ν ρ,
      (s.candidate.values.map Prod.fst).Nodup ∧
        (∀ x, x ∈ s.candidate.values.map Prod.fst ↔
          ∃ c ∈ s.constraints, x ∈ c.lower.unknowns ∨ x ∈ c.upper.unknowns) ∧
        ∀ x a, (x, a) ∈ s.candidate.values → ∃ i : Fin s.nodes.length,
          s.node? (.var x) = some i.val ∧ s.outcome.values.get i = a) ∧
    ∀ (p : Problem) (s : LabelSystem Principal String Violation), p.system = .ok s →
      s.labelCandidate.unknowns.Nodup ∧
        (∀ x, x ∈ s.labelCandidate.unknowns ↔
          ∃ c ∈ p.constraints, c.source.Mentions x ∨ c.sink.Mentions x) ∧
        ∀ sol, s.labelSolution = .ok sol → sol.unknowns = s.labelCandidate.unknowns ∧
          ∀ path document, parse path document = .ok p → ∀ allViolations drawing,
            (plan (.solve path .text allViolations drawing) (some document)).response =
              .success (String.join (sol.unknowns.map fun x =>
                x ++ ": " ++ (sol.get x).text ++ "\n")) ∧
            ∃ members : List (String × Json), (members.map Prod.fst).Perm sol.unknowns ∧
              (plan (.solve path .json allViolations drawing) (some document)).response =
                .success ((Json.object [("labels", .object members), ("status", .string "ok")]).print
                  ++ "\n") := by
  refine ⟨fun c x => ?_, fun s => ?_, fun p s h => ⟨nodup_eraseDups _, fun x => ?_, ?_⟩⟩
  · exact ⟨AtomicConstraint.exists_lower_iff c.reduces, AtomicConstraint.exists_upper_iff c.reduces⟩
  · exact ⟨s.nodup_candidate, fun x => ConstraintSystem.mem_candidate_iff,
      fun x a => ConstraintSystem.exists_node_of_mem_candidate⟩
  · exact mem_unknowns_labelCandidate h
  · intro sol hsol
    refine ⟨congrArg _ (solution_eq_labelCandidate h hsol), ?_⟩
    intro path document hparse allViolations drawing
    rw [plan_solve h hparse, plan_solve h hparse, solved_of_solution hsol, solved_of_solution hsol]
    obtain ⟨members, hperm, hjson⟩ := exists_members sol
    refine ⟨rfl, members, hperm, ?_⟩
    unfold satisfied
    rw [hjson]

theorem unknowns_exact_flow :
    let document := "[[constraints]]\nfrom.var = \"y\"\nto.var = \"x\"\n"
    ∃ p s sol, parse "flows.toml" document = .ok p ∧ p.system = .ok s ∧ s.labelSolution = .ok sol ∧
      sol.unknowns.Nodup ∧ (∀ x, x ∈ sol.unknowns ↔ x = "y" ∨ x = "x") ∧
      (plan (.solve "flows.toml" .text false none) (some document)).response =
        .success (String.join (sol.unknowns.map fun x =>
          x ++ ": " ++ (sol.get x).text ++ "\n")) := by
  intro document
  let p : Problem := ⟨[], [⟨.var "y", .var "x", none⟩]⟩
  have hformat : format? "flows.toml" = some .toml := by
    simp only [format?, extension?, pathParts, String.reduceToList]
    rfl
  have hread : Toml.read document = some (.object [("constraints", .array
      [.object [("from", .object [("var", .string "y")]),
        ("to", .object [("var", .string "x")])]])]) := by
    simp only [Toml.read, document, String.reduceToList]
    rfl
  have hparse : parse "flows.toml" document = .ok p := by
    simp only [parse, hformat, ofDocument?, hread]
    rfl
  obtain ⟨s, hs⟩ : ∃ s, p.system = .ok s := ⟨_, rfl⟩
  have hviolations : s.violations = [] := by
    cases hs
    cbv
  have hcandidate : s.solution = .ok s.candidate := ConstraintSystem.solution_eq_ok_iff.mpr
    ⟨rfl, ConstraintSystem.violationsUnder_eq_nil_iff.mp hviolations⟩
  have hsol : s.labelSolution = .ok s.labelCandidate := by
    rw [LabelSystem.labelSolution, hcandidate]
    rfl
  obtain ⟨hnodup, hmem, hprinted⟩ :=
    (unknowns_exact (γ := Principal) (ν := String) (ρ := Unit)).2.2 p s hs
  refine ⟨p, s, _, hparse, hs, hsol, hnodup, fun x => ?_,
    ((hprinted _ hsol).2 _ _ hparse false none).1⟩
  rw [hmem]
  simp only [p, List.mem_singleton, exists_eq_left, LabelExpr.mentions_var_iff]

end Problem

end LabelInference
