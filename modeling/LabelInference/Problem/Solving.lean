import LabelInference.FreeLattice.Entailment
import LabelInference.FreeLattice.Text
import LabelInference.Label.Constraint
import LabelInference.Problem.Basic

namespace LabelInference

abbrev Principal := FreeLattice String

mutual

def PrincipalExpr.eval : PrincipalExpr → Principal
  | .host name => .atom name
  | .all operands => PrincipalExpr.meetWith .top operands
  | .any operands => PrincipalExpr.joinWith .bottom operands
  | .strongest => .bottom
  | .weakest => .top

def PrincipalExpr.meetWith (p : Principal) : List PrincipalExpr → Principal
  | [] => p
  | operand :: rest => PrincipalExpr.meetWith (meet p operand.eval) rest

def PrincipalExpr.joinWith (p : Principal) : List PrincipalExpr → Principal
  | [] => p
  | operand :: rest => PrincipalExpr.joinWith (join p operand.eval) rest

end

mutual

-- An empty join is the label that flows everywhere, an empty meet the one that everything flows to.
def LabelExpr.term : LabelExpr → LabelTerm Principal String
  | .host name => .ofLabel (.uniform (.atom name))
  | .var name => .ofVariable name
  | .label confidentiality integrity => .ofLabel ⟨confidentiality.eval, integrity.eval⟩
  | .join [] => .ofLabel (.lowest FreeLattice.bounds)
  | .join (operand :: rest) => LabelExpr.joinWith operand.term rest
  | .meet [] => .ofLabel (.highest FreeLattice.bounds)
  | .meet (operand :: rest) => LabelExpr.meetWith operand.term rest
  | .top => .ofLabel (.highest FreeLattice.bounds)
  | .bottom => .ofLabel (.lowest FreeLattice.bounds)

def LabelExpr.joinWith (t : LabelTerm Principal String) :
    List LabelExpr → LabelTerm Principal String
  | [] => t
  | operand :: rest => LabelExpr.joinWith (Join.join t operand.term) rest

def LabelExpr.meetWith (t : LabelTerm Principal String) :
    List LabelExpr → LabelTerm Principal String
  | [] => t
  | operand :: rest => LabelExpr.meetWith (Meet.meet t operand.term) rest

end

-- A constraint of the problem that its greatest candidate does not satisfy, with what the two sides
-- come to on the component that fails.
structure Violation where
  index : Nat
  reason : Option String
  source : Label Principal
  sink : Label Principal

def Violation.text (v : Violation) : String :=
  "constraint " ++ toString v.index ++ ": " ++ v.source.text ++ " does not flow to " ++ v.sink.text ++
    match v.reason with
    | some reason => " (" ++ reason ++ ")"
    | none => ""

structure IllegalConstraint where
  index : Nat
  cause : UnsupportedTerm Principal (ComponentVariable String)

def IllegalConstraint.message (e : IllegalConstraint) : String :=
  "constraint #" ++ toString e.index ++ " is outside the supported term fragment"

namespace Problem

def delegations (p : Problem) : List (Delegation String) :=
  p.assumptions.map fun a => ⟨a.actor.eval, a.principal.eval⟩

def labelConstraints (p : Problem) :
    Except IllegalConstraint (List (LabelConstraint Principal String Violation)) := do
  let flows ← p.constraints.zipIdx.mapM fun (c, index) =>
    (LabelTerm.flow FreeLattice.bounds c.source.term c.sink.term
      (Violation.mk index c.reason)).mapError (IllegalConstraint.mk index)
  return flows.flatten

def system (p : Problem) : Except IllegalConstraint (LabelSystem Principal String Violation) := do
  let constraints ← p.labelConstraints
  return ⟨constraints, FreeLattice.bounds, FreeLattice.entails p.delegations⟩

end Problem

end LabelInference
