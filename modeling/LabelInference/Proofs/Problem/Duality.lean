import LabelInference.Proofs.Label.Duality
import LabelInference.Proofs.Problem.Reading

namespace LabelInference

namespace LabelExpr

mutual

def dual : LabelExpr → LabelExpr
  | .host name => .host name
  | .var name => .var name
  | .label confidentiality integrity => .label integrity confidentiality
  | .join operands => .meet (dualAll operands)
  | .meet operands => .join (dualAll operands)
  | .top => .bottom
  | .bottom => .top

def dualAll : List LabelExpr → List LabelExpr
  | [] => []
  | operand :: rest => operand.dual :: dualAll rest

end

-- Operands are folded from the first one on both sides, and the unit of a join is the dual of that of a
-- meet.
mutual

theorem term_dual : (e : LabelExpr) → e.dual.term = e.term.dual
  | .host _ | .var _ | .label _ _ | .join [] | .meet [] | .top | .bottom => rfl
  | .join (operand :: rest) => by
    rw [dual, dualAll, term, term, term_dual, meetWith_dualAll]
  | .meet (operand :: rest) => by
    rw [dual, dualAll, term, term, term_dual, joinWith_dualAll]

theorem meetWith_dualAll (t : LabelTerm Principal String) : (operands : List LabelExpr) →
    meetWith t.dual (dualAll operands) = (joinWith t operands).dual
  | [] => rfl
  | operand :: rest => by
    rw [dualAll, meetWith, joinWith, term_dual, ← meetWith_dualAll]
    rfl

theorem joinWith_dualAll (t : LabelTerm Principal String) : (operands : List LabelExpr) →
    joinWith t.dual (dualAll operands) = (meetWith t operands).dual
  | [] => rfl
  | operand :: rest => by
    rw [dualAll, joinWith, meetWith, term_dual, ← joinWith_dualAll]
    rfl

end

end LabelExpr

namespace FlowConstraint

def dual (c : FlowConstraint) : FlowConstraint := ⟨c.sink.dual, c.source.dual, c.reason⟩

theorem sides_dual (c : FlowConstraint) (k : Label.Component) :
    Label.sides c.dual.source.term c.dual.sink.term k.other =
      ((Label.sides c.source.term c.sink.term k).1.rename ComponentVariable.swap,
        (Label.sides c.source.term c.sink.term k).2.rename ComponentVariable.swap) := by
  rw [dual, LabelExpr.term_dual, LabelExpr.term_dual]
  exact LabelTerm.sides_dual c.source.term c.sink.term k

end FlowConstraint

namespace Problem

def dual (p : Problem) : Problem := ⟨p.assumptions, p.constraints.map FlowConstraint.dual⟩

variable {p : Problem} {s s' : LabelSystem Principal String Violation}

theorem flows_dual (p : Problem) : p.dual.flows = p.flows.map LabelFlow.dual := by
  unfold flows dual
  rw [List.zipIdx_map, List.map_map, List.map_map]
  refine List.map_congr_left fun entry _ => ?_
  simp [FlowConstraint.dual, LabelFlow.dual, FlowScope.dual, LabelExpr.term_dual]

theorem dual_system_eq_ok_iff : p.dual.system = .ok s ↔
    LabelFlow.system FreeLattice.bounds (FreeLattice.entails p.delegations)
      (p.flows.map LabelFlow.dual) = .ok s := by
  rw [system_eq_ok_iff, flows_dual]
  rfl

theorem dual_dual_system_eq_ok_iff : p.dual.dual.system = .ok s ↔ p.system = .ok s := by
  rw [dual_system_eq_ok_iff, flows_dual, LabelFlow.map_dual_dual, system_eq_ok_iff]
  rfl

theorem exists_dual_system (h : p.system = .ok s) : ∃ s', p.dual.system = .ok s' := by
  obtain ⟨s', h'⟩ := LabelFlow.exists_system_dual (system_eq_ok_iff.mp h)
  exact ⟨s', dual_system_eq_ok_iff.mpr h'⟩

-- A flow of the problem has two constraints, one after the other.
theorem exists_half (h : p.system = .ok s) {i : Nat} {c : FlowConstraint}
    (hc : p.constraints[i]? = some c) (k : Label.Component) :
    ∃ half, s.constraints[2 * i + k.position]? = some half ∧
      (half.lower, half.upper) = Label.sides c.source.term c.sink.term k := by
  have hboth : ∀ f ∈ p.flows, f.scope = .both := by
    unfold flows
    rw [List.forall_mem_map]
    exact fun _ _ => rfl
  have hflow : p.flows[i]? = some ⟨.both, c.source.term, c.sink.term, Violation.mk i c.reason⟩ := by
    simp [flows, List.getElem?_zipIdx, hc]
  obtain ⟨half, hhalf, hconstraint⟩ :=
    LabelFlow.getElem?_constraints (system_eq_ok_iff.mp h) hboth hflow k
  obtain ⟨hlower, hupper⟩ := LabelFlow.constraint_ok hconstraint
  exact ⟨half, hhalf, Prod.ext hlower hupper⟩

-- A problem and its dual are accepted together. Then their labels have the components exchanged, the half
-- of a flow on one component is violated with the half of its dual on the other one, and both problems are
-- solved or neither.
theorem dual_exchanges_components (p : Problem) :
    ((∃ s, p.system = .ok s) ↔ ∃ s', p.dual.system = .ok s') ∧
      ∀ s s', p.system = .ok s → p.dual.system = .ok s' →
        (∀ x, s'.labelCandidate.get x = (s.labelCandidate.get x).swap) ∧
        (∀ i c, p.constraints[i]? = some c → ∀ k : Label.Component, ∃ half half',
          s.constraints[2 * i + k.position]? = some half ∧
          s'.constraints[2 * i + k.other.position]? = some half' ∧
          (half.lower, half.upper) = Label.sides c.source.term c.sink.term k ∧
          (half'.lower, half'.upper) =
            Label.sides c.dual.source.term c.dual.sink.term k.other ∧
          (half ∈ s.violated ↔ half' ∈ s'.violated)) ∧
        ((∃ sol, s.labelSolution = .ok sol) ↔ ∃ sol, s'.labelSolution = .ok sol) := by
  refine ⟨⟨fun ⟨s, h⟩ => exists_dual_system h, fun ⟨s', h'⟩ => ?_⟩, fun s s' h h' => ?_⟩
  · obtain ⟨s, h⟩ := exists_dual_system h'
    exact ⟨s, dual_dual_system_eq_ok_iff.mp h⟩
  · have hflows := system_eq_ok_iff.mp h
    have hflows' := dual_system_eq_ok_iff.mp h'
    refine ⟨LabelFlow.labelCandidate_dual hflows hflows', fun i c hc k => ?_,
      LabelFlow.exists_labelSolution_iff_dual hflows hflows'⟩
    have hc' : p.dual.constraints[i]? = some c.dual := by
      rw [dual, List.getElem?_map, hc]
      rfl
    obtain ⟨half, hhalf, hsides⟩ := exists_half h hc k
    obtain ⟨half', hhalf', hsides'⟩ := exists_half h' hc' k.other
    have hrenamed : Constraint.IsRenamed ComponentVariable.swap half half' := by
      have hrename := hsides'.trans (c.sides_dual k)
      rw [← hsides] at hrename
      exact ⟨congrArg Prod.fst hrename, congrArg Prod.snd hrename⟩
    refine ⟨half, half', hhalf, hhalf', hsides, hsides', ?_⟩
    exact LabelFlow.mem_violated_iff_dual hflows hflows' (List.mem_of_getElem? hhalf)
      (List.mem_of_getElem? hhalf') hrenamed

-- The second flow may be read by carol, whom the assumption trusts with what alice may read but not with
-- what bob may read. In the dual it is influenced by her.
theorem dual_exchanges_components_readers :
    let p : Problem :=
      ⟨[⟨.host "carol", .host "alice"⟩],
        [⟨.label (.host "alice") (.host "bob"), .join [.var "x", .meet [.var "x"]], none⟩,
          ⟨.join [.var "x", .host "bob", .join []], .label (.host "carol") .weakest, none⟩]⟩
    ∃ s s', p.system = .ok s ∧ p.dual.system = .ok s' ∧
      s.labelCandidate.get "x" = ⟨.atom "alice", .top⟩ ∧
      s'.labelCandidate.get "x" = ⟨.top, .atom "alice"⟩ ∧
      (∃ half half', s.constraints[2]? = some half ∧ s'.constraints[3]? = some half' ∧
        half ∈ s.violated ∧ half' ∈ s'.violated) ∧
      (¬∃ sol, s.labelSolution = .ok sol) ∧ ¬∃ sol, s'.labelSolution = .ok sol := by
  intro p
  obtain ⟨s, hs⟩ : ∃ s, p.system = .ok s := ⟨_, rfl⟩
  obtain ⟨s', hs'⟩ := (dual_exchanges_components p).1.mp ⟨s, hs⟩
  obtain ⟨hcandidate, hhalves, hsolved⟩ := (dual_exchanges_components p).2 s s' hs hs'
  obtain ⟨half, half', hhalf, hhalf', _, _, hboth⟩ := hhalves 1 _ rfl .confidentiality
  have hx : s.labelCandidate.get "x" = ⟨.atom "alice", .top⟩ := by
    cases hs
    cbv
  have hfails : s.order (s.candidate.eval half.lower) (s.candidate.eval half.upper) = false := by
    cases hs
    cases hhalf
    cbv
  have hviolated : half ∈ s.violated := by
    refine ConstraintSystem.mem_violated.mpr ⟨List.mem_of_getElem? hhalf, ?_⟩
    rw [hfails]
    exact Bool.false_ne_true
  have hunsolved : ¬∃ sol, s.labelSolution = .ok sol := by
    rw [LabelSystem.exists_labelSolution_iff]
    exact fun h => h half hviolated
  refine ⟨s, s', hs, hs', hx, ?_, ⟨half, half', hhalf, hhalf', hviolated, hboth.mp hviolated⟩,
    hunsolved, fun h => hunsolved (hsolved.mpr h)⟩
  rw [hcandidate, hx]
  rfl

end Problem

end LabelInference
