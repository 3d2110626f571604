namespace LabelInference

inductive PrincipalExpr where
  | host (name : String)
  -- Trusted if every operand is.
  | all (operands : List PrincipalExpr)
  -- Trusted if some operand is.
  | any (operands : List PrincipalExpr)
  | strongest
  | weakest

inductive LabelExpr where
  -- The host on both components.
  | host (name : String)
  | var (name : String)
  | label (confidentiality integrity : PrincipalExpr)
  | join (operands : List LabelExpr)
  | meet (operands : List LabelExpr)
  | top
  | bottom

-- The actor is trusted with whatever the principal is trusted with.
structure Assumption where
  actor : PrincipalExpr
  principal : PrincipalExpr

-- Information may flow from the source to the sink. The reason is shown when it cannot.
structure FlowConstraint where
  source : LabelExpr
  sink : LabelExpr
  reason : Option String

structure Problem where
  assumptions : List Assumption
  constraints : List FlowConstraint

end LabelInference
