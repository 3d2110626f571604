import LabelInference.Problem.Solving
import LabelInference.Proofs.FreeLattice.Entailment
import LabelInference.Proofs.Label.Flow
import Mathlib.Computability.Primrec.List
import Mathlib.Data.Fin.Tuple.Take
import Mathlib.Data.List.Permutation

-- The imported Mathlib modules have the equations of `List.lookup`, `Fin.cast` and `Prod.snd` by which `cbv` evaluates a run.

namespace LabelInference

mutual

-- The reading of a principal when exactly the hosts that `truth` accepts are trusted.
def PrincipalExpr.holds (truth : String → Bool) : PrincipalExpr → Bool
  | .host name => truth name
  | .all operands => PrincipalExpr.allHold truth operands
  | .any operands => PrincipalExpr.anyHolds truth operands
  | .strongest => false
  | .weakest => true

def PrincipalExpr.allHold (truth : String → Bool) : List PrincipalExpr → Bool
  | [] => true
  | operand :: rest => operand.holds truth && PrincipalExpr.allHold truth rest

def PrincipalExpr.anyHolds (truth : String → Bool) : List PrincipalExpr → Bool
  | [] => false
  | operand :: rest => operand.holds truth || PrincipalExpr.anyHolds truth rest

end

namespace Label

def reading (truth : String → Bool) (l : Label Principal) : Label Bool :=
  ⟨l.confidentiality.holds truth, l.integrity.holds truth⟩

-- On confidentiality joins are read as conjunctions and meets as disjunctions, on integrity conversely.
def joinReading (l k : Label Bool) : Label Bool :=
  ⟨l.confidentiality && k.confidentiality, l.integrity || k.integrity⟩

def meetReading (l k : Label Bool) : Label Bool :=
  ⟨l.confidentiality || k.confidentiality, l.integrity && k.integrity⟩

end Label

section Reading

variable (labels : String → Label Principal) (truth : String → Bool)

mutual

def LabelExpr.reading : LabelExpr → Label Bool
  | .host name => .uniform (truth name)
  | .var name => (labels name).reading truth
  | .label confidentiality integrity => ⟨confidentiality.holds truth, integrity.holds truth⟩
  | .join operands => LabelExpr.joinReading operands
  | .meet operands => LabelExpr.meetReading operands
  | .top => ⟨false, true⟩
  | .bottom => ⟨true, false⟩

def LabelExpr.joinReading : List LabelExpr → Label Bool
  | [] => ⟨true, false⟩
  | operand :: rest => Label.joinReading operand.reading (LabelExpr.joinReading rest)

def LabelExpr.meetReading : List LabelExpr → Label Bool
  | [] => ⟨false, true⟩
  | operand :: rest => Label.meetReading operand.reading (LabelExpr.meetReading rest)

end

end Reading

namespace PrincipalExpr

variable (truth : String → Bool)

mutual

theorem holds_eval : (e : PrincipalExpr) → e.eval.holds truth = e.holds truth
  | .host name => by simp [eval, holds]
  | .all operands => by simp [eval, holds, holds_meetWith]
  | .any operands => by simp [eval, holds, holds_joinWith]
  | .strongest => by simp [eval, holds]
  | .weakest => by simp [eval, holds]

theorem holds_meetWith (p : Principal) : (operands : List PrincipalExpr) →
    (meetWith p operands).holds truth = (p.holds truth && allHold truth operands)
  | [] => by simp [meetWith, allHold]
  | operand :: rest => by
    rw [meetWith, holds_meetWith, FreeLattice.holds_meet_eq_and, holds_eval, allHold, Bool.and_assoc]

theorem holds_joinWith (p : Principal) : (operands : List PrincipalExpr) →
    (joinWith p operands).holds truth = (p.holds truth || anyHolds truth operands)
  | [] => by simp [joinWith, anyHolds]
  | operand :: rest => by
    rw [joinWith, holds_joinWith, FreeLattice.holds_join_eq_or, holds_eval, anyHolds, Bool.or_assoc]

end

end PrincipalExpr

namespace Label

variable {truth : String → Bool}

theorem reading_join {l k : Label Principal} :
    (join l k).reading truth = joinReading (l.reading truth) (k.reading truth) :=
  congrArg₂ mk FreeLattice.holds_meet_eq_and FreeLattice.holds_join_eq_or

theorem reading_meet {l k : Label Principal} :
    (meet l k).reading truth = meetReading (l.reading truth) (k.reading truth) :=
  congrArg₂ mk FreeLattice.holds_join_eq_or FreeLattice.holds_meet_eq_and

theorem joinReading_assoc (a b c : Label Bool) :
    joinReading (joinReading a b) c = joinReading a (joinReading b c) :=
  congrArg₂ mk (Bool.and_assoc _ _ _) (Bool.or_assoc _ _ _)

theorem meetReading_assoc (a b c : Label Bool) :
    meetReading (meetReading a b) c = meetReading a (meetReading b c) :=
  congrArg₂ mk (Bool.or_assoc _ _ _) (Bool.and_assoc _ _ _)

end Label

namespace LabelExpr

variable (labels : String → Label Principal) (truth : String → Bool)

-- The first operand of a join starts the fold, so no unit is joined to it. The unit is read only where
-- there is no operand.
mutual

theorem reading_eval : (e : LabelExpr) →
    (e.term.eval labels).reading truth = e.reading labels truth
  | .host name => by simp [term, reading, Label.reading, Label.uniform]
  | .var name => by simp [term, reading]
  | .label confidentiality integrity => by
    simp [term, reading, Label.reading, PrincipalExpr.holds_eval]
  | .join [] => by
    simp [term, reading, joinReading, Label.reading, Label.lowest, FreeLattice.bounds]
  | .join (operand :: rest) => by
    rw [term, reading_joinWith, reading_eval, reading, joinReading]
  | .meet [] => by
    simp [term, reading, meetReading, Label.reading, Label.highest, FreeLattice.bounds]
  | .meet (operand :: rest) => by
    rw [term, reading_meetWith, reading_eval, reading, meetReading]
  | .top => by simp [term, reading, Label.reading, Label.highest, FreeLattice.bounds]
  | .bottom => by simp [term, reading, Label.reading, Label.lowest, FreeLattice.bounds]

theorem reading_joinWith (t : LabelTerm Principal String) : (operands : List LabelExpr) →
    ((joinWith t operands).eval labels).reading truth =
      Label.joinReading ((t.eval labels).reading truth) (joinReading labels truth operands)
  | [] => by simp [joinWith, joinReading, Label.joinReading]
  | operand :: rest => by
    rw [joinWith, reading_joinWith, LabelTerm.eval_join, Label.reading_join, reading_eval,
      joinReading, Label.joinReading_assoc]

theorem reading_meetWith (t : LabelTerm Principal String) : (operands : List LabelExpr) →
    ((meetWith t operands).eval labels).reading truth =
      Label.meetReading ((t.eval labels).reading truth) (meetReading labels truth operands)
  | [] => by simp [meetWith, meetReading, Label.meetReading]
  | operand :: rest => by
    rw [meetWith, reading_meetWith, LabelTerm.eval_meet, Label.reading_meet, reading_eval,
      meetReading, Label.meetReading_assoc]

end

end LabelExpr

namespace Problem

-- The trusted hosts are ones that the assumptions allow.
def Admits (p : Problem) (truth : String → Bool) : Prop :=
  ∀ a ∈ p.assumptions, a.actor.holds truth = true → a.principal.holds truth = true

def flows (p : Problem) : List (LabelFlow Principal String Violation) :=
  p.constraints.zipIdx.map fun (c, index) =>
    ⟨.both, c.source.term, c.sink.term, Violation.mk index c.reason⟩

variable {p : Problem} {s : LabelSystem Principal String Violation} {truth : String → Bool}
  {labels : String → Label Principal}

theorem admits_iff :
    p.Admits truth ↔ ∀ d ∈ p.delegations, d.respectedBy truth = true := by
  unfold Admits delegations
  rw [List.forall_mem_map]
  simp only [Delegation.respectedBy_iff, PrincipalExpr.holds_eval]

theorem entails_delegations_iff {a b : Principal} : a.entails p.delegations b = true ↔
    ∀ truth, p.Admits truth → a.holds truth = true → b.holds truth = true := by
  rw [FreeLattice.entails_iff_respectedBy]
  simp only [admits_iff]

theorem flows_system (h : p.system = .ok s) :
    LabelFlow.system FreeLattice.bounds (FreeLattice.entails p.delegations) p.flows = .ok s := by
  obtain ⟨constraints, hconstraints, h⟩ := bind_ok h
  obtain ⟨css, hcss, hflatten⟩ := bind_ok hconstraints
  cases hflatten
  cases h
  have hflows : p.flows.mapM (LabelFlow.constraints FreeLattice.bounds) = .ok css := by
    unfold flows
    rw [List.mapM_map]
    exact mapM_ok_mono (fun _ _ hc => mapError_ok hc) hcss
  unfold LabelFlow.system
  rw [hflows]
  rfl

-- A problem is accepted if its flows are, whatever index a refusal would have.
theorem system_eq_ok_iff : p.system = .ok s ↔
    LabelFlow.system FreeLattice.bounds (FreeLattice.entails p.delegations) p.flows = .ok s := by
  refine ⟨flows_system, fun h => ?_⟩
  obtain ⟨css, hcss, rfl⟩ := LabelFlow.system_ok h
  have hindexed : (p.constraints.zipIdx.mapM fun (c, index) =>
      (LabelTerm.flow FreeLattice.bounds c.source.term c.sink.term
        (Violation.mk index c.reason)).mapError (IllegalConstraint.mk index)) = .ok css := by
    unfold flows at hcss
    rw [List.mapM_map] at hcss
    exact mapM_ok_mono (fun _ _ hc => mapError_of_ok hc) hcss
  unfold system labelConstraints
  rw [hindexed]
  rfl

theorem forall_flows_iff {order : Principal → Principal → Bool} :
    (∀ f ∈ p.flows, f.holds order labels = true) ↔ ∀ c ∈ p.constraints,
      (c.source.term.eval labels).flowsTo order (c.sink.term.eval labels) = true := by
  unfold flows
  rw [List.forall_mem_map]
  conv_rhs => rw [← List.zipIdx_map_fst 0 p.constraints, List.forall_mem_map]
  rfl

theorem flowsTo_entails_iff {source sink : LabelExpr} :
    (source.term.eval labels).flowsTo (FreeLattice.entails p.delegations)
        (sink.term.eval labels) = true ↔
      ∀ truth, p.Admits truth →
        ((sink.reading labels truth).confidentiality = true →
            (source.reading labels truth).confidentiality = true) ∧
          ((source.reading labels truth).integrity = true →
            (sink.reading labels truth).integrity = true) := by
  unfold Label.flowsTo
  rw [Bool.and_eq_true, entails_delegations_iff, entails_delegations_iff, ← forall₂_and]
  refine forall₂_congr fun truth _ => ?_
  rw [← LabelExpr.reading_eval, ← LabelExpr.reading_eval]
  rfl

-- The labels inferred for a problem are accepted if every flow is legal under all sets of trusted hosts
-- that the assumptions admit.
theorem exists_labelSolution_iff_reading (p : Problem) (s : LabelSystem Principal String Violation)
    (h : p.system = .ok s) :
    (∃ sol, s.labelSolution = .ok sol) ↔
      ∀ c ∈ p.constraints, ∀ truth : String → Bool,
        (∀ a ∈ p.assumptions, a.actor.holds truth = true → a.principal.holds truth = true) →
          let source := c.source.reading s.labelCandidate.get truth
          let sink := c.sink.reading s.labelCandidate.get truth
          (sink.confidentiality = true → source.confidentiality = true) ∧
            (source.integrity = true → sink.integrity = true) := by
  have hholds : (∃ sol, s.labelSolution = .ok sol) ↔ ∀ f ∈ p.flows,
      f.holds (FreeLattice.entails p.delegations) s.labelCandidate.get = true := by
    constructor
    · rintro ⟨sol, hsol⟩
      obtain ⟨rfl, hflows⟩ := (LabelFlow.labelSolution_ok_iff (flows_system h)).mp hsol
      exact hflows
    · intro hflows
      exact ⟨_, (LabelFlow.labelSolution_ok_iff (flows_system h)).mpr ⟨rfl, hflows⟩⟩
  rw [hholds, forall_flows_iff]
  exact forall₂_congr fun c _ => flowsTo_entails_iff

-- The unknown gets the label of bob. The flow into it is legal on integrity, and the flow out of it on
-- confidentiality, because alice acts for bob.
theorem exists_labelSolution_iff_reading_delegated :
    let p : Problem :=
      ⟨[⟨.host "alice", .host "bob"⟩],
        [⟨.meet [.label (.host "bob") (.host "alice")], .var "x", none⟩,
          ⟨.join [.var "x", .bottom], .label (.host "alice") (.any [.host "bob"]), none⟩]⟩
    ∃ s, p.system = .ok s ∧ s.labelCandidate.get "x" = .uniform (.atom "bob") ∧
      ∃ sol, s.labelSolution = .ok sol := by
  intro p
  obtain ⟨s, hs⟩ : ∃ s, p.system = .ok s := ⟨_, rfl⟩
  have hx : s.labelCandidate.get "x" = .uniform (.atom "bob") := by
    cases hs
    cbv
  refine ⟨s, hs, hx, (exists_labelSolution_iff_reading p s hs).mpr fun c hc truth hadmits => ?_⟩
  have hdelegated : truth "alice" = true → truth "bob" = true :=
    hadmits ⟨.host "alice", .host "bob"⟩ (List.mem_singleton_self _)
  have hreading : (s.labelCandidate.get "x").reading truth = ⟨truth "bob", truth "bob"⟩ := by
    rw [hx]
    simp [Label.reading, Label.uniform]
  rcases List.mem_pair.mp hc with rfl | rfl
  · simpa [LabelExpr.reading, LabelExpr.meetReading, Label.meetReading, PrincipalExpr.holds,
      hreading] using hdelegated
  · simpa [LabelExpr.reading, LabelExpr.joinReading, Label.joinReading, PrincipalExpr.holds,
      PrincipalExpr.anyHolds, hreading] using hdelegated

end Problem

end LabelInference
