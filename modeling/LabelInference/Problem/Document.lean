import LabelInference.Json.Basic
import LabelInference.Problem.Basic

namespace LabelInference

-- Where document formats differ in what they accept.
structure Dialect where
  -- Unknown fields of a `label` are passed over.
  skipsExtraLabelFields : Bool
  -- An array may go on after the last field of a record.
  allowsSurplusItems : Bool
  -- What may stand with the name of a kind without operands.
  isNothing : Json → Bool

namespace Dialect

def json : Dialect where
  skipsExtraLabelFields := true
  allowsSurplusItems := false
  isNothing
    | .null => true
    | _ => false

def toml : Dialect where
  skipsExtraLabelFields := false
  allowsSurplusItems := true
  isNothing
    | .array [] | .object [] => true
    | _ => false

-- The fields of a record by name; a field may be absent but not repeated.
def fields (d : Dialect) (skipsExtra : Bool) (names : List String) :
    Json → Option (List (Option Json))
  | .array items =>
    if items.length ≤ names.length || d.allowsSurplusItems then
      some (names.mapIdx fun i _ => items[i]?)
    else none
  | .object members =>
    if (skipsExtra || members.all fun m => m.1 ∈ names) &&
        names.all fun name => members.countP (·.1 = name) ≤ 1 then
      some (names.map fun name => List.lookup name members)
    else none
  | _ => none

end Dialect

mutual

def PrincipalExpr.ofJson? (d : Dialect) : Json → Option PrincipalExpr
  | .string "strongest" => some .strongest
  | .string "weakest" => some .weakest
  | .object [("host", .string name)] => some (.host name)
  | .object [("and", .array operands)] => (PrincipalExpr.ofJsons? d operands).map .all
  | .object [("or", .array operands)] => (PrincipalExpr.ofJsons? d operands).map .any
  | .object [("strongest", payload)] => if d.isNothing payload then some .strongest else none
  | .object [("weakest", payload)] => if d.isNothing payload then some .weakest else none
  | _ => none

def PrincipalExpr.ofJsons? (d : Dialect) : List Json → Option (List PrincipalExpr)
  | [] => some []
  | j :: js => do return (← PrincipalExpr.ofJson? d j) :: (← PrincipalExpr.ofJsons? d js)

end

def LabelExpr.labelOfJson? (d : Dialect) (payload : Json) : Option LabelExpr := do
  match ← d.fields d.skipsExtraLabelFields ["confidentiality", "integrity"] payload with
  | [some confidentiality, some integrity] =>
    return .label (← PrincipalExpr.ofJson? d confidentiality) (← PrincipalExpr.ofJson? d integrity)
  | _ => none

mutual

def LabelExpr.ofJson? (d : Dialect) : Json → Option LabelExpr
  | .string "top" => some .top
  | .string "bottom" => some .bottom
  | .object [("host", .string name)] => some (.host name)
  | .object [("var", .string name)] => some (.var name)
  | .object [("label", payload)] => LabelExpr.labelOfJson? d payload
  | .object [("join", .array operands)] => (LabelExpr.ofJsons? d operands).map .join
  | .object [("meet", .array operands)] => (LabelExpr.ofJsons? d operands).map .meet
  | .object [("top", payload)] => if d.isNothing payload then some .top else none
  | .object [("bottom", payload)] => if d.isNothing payload then some .bottom else none
  | _ => none

def LabelExpr.ofJsons? (d : Dialect) : List Json → Option (List LabelExpr)
  | [] => some []
  | j :: js => do return (← LabelExpr.ofJson? d j) :: (← LabelExpr.ofJsons? d js)

end

def Assumption.ofJson? (d : Dialect) (j : Json) : Option Assumption := do
  match ← d.fields false ["from", "to"] j with
  | [some actor, some principal] =>
    return ⟨← PrincipalExpr.ofJson? d actor, ← PrincipalExpr.ofJson? d principal⟩
  | _ => none

def FlowConstraint.reasonOfJson? : Option Json → Option (Option String)
  | none | some .null => some none
  | some (.string reason) => some (some reason)
  | some _ => none

def FlowConstraint.ofJson? (d : Dialect) (j : Json) : Option FlowConstraint := do
  match ← d.fields false ["from", "to", "reason"] j with
  | [some source, some sink, reason] =>
    return ⟨← LabelExpr.ofJson? d source, ← LabelExpr.ofJson? d sink,
      ← FlowConstraint.reasonOfJson? reason⟩
  | _ => none

-- A list of records, empty if absent.
def recordsOfJson? {β : Type} (ofJson? : Json → Option β) : Option Json → Option (List β)
  | none => some []
  | some (.array items) => items.mapM ofJson?
  | some _ => none

def Problem.ofJson? (d : Dialect) (j : Json) : Option Problem := do
  match ← d.fields false ["assumptions", "constraints"] j with
  | [assumptions, constraints] =>
    return ⟨← recordsOfJson? (Assumption.ofJson? d) assumptions,
      ← recordsOfJson? (FlowConstraint.ofJson? d) constraints⟩
  | _ => none

mutual

def PrincipalExpr.toJson : PrincipalExpr → Json
  | .host name => .object [("host", .string name)]
  | .all operands => .object [("and", .array (PrincipalExpr.toJsons operands))]
  | .any operands => .object [("or", .array (PrincipalExpr.toJsons operands))]
  | .strongest => .string "strongest"
  | .weakest => .string "weakest"

def PrincipalExpr.toJsons : List PrincipalExpr → List Json
  | [] => []
  | e :: es => e.toJson :: PrincipalExpr.toJsons es

end

mutual

def LabelExpr.toJson : LabelExpr → Json
  | .host name => .object [("host", .string name)]
  | .var name => .object [("var", .string name)]
  | .label confidentiality integrity =>
    .object [("label", .object
      [("confidentiality", confidentiality.toJson), ("integrity", integrity.toJson)])]
  | .join operands => .object [("join", .array (LabelExpr.toJsons operands))]
  | .meet operands => .object [("meet", .array (LabelExpr.toJsons operands))]
  | .top => .string "top"
  | .bottom => .string "bottom"

def LabelExpr.toJsons : List LabelExpr → List Json
  | [] => []
  | e :: es => e.toJson :: LabelExpr.toJsons es

end

def Assumption.toJson (a : Assumption) : Json :=
  .object [("from", a.actor.toJson), ("to", a.principal.toJson)]

-- A reason is written only if there is one.
def FlowConstraint.toJson (c : FlowConstraint) : Json :=
  .object <| [("from", c.source.toJson), ("to", c.sink.toJson)] ++
    c.reason.toList.map fun reason => ("reason", .string reason)

def Problem.toJson (p : Problem) : Json :=
  .object [("assumptions", .array (p.assumptions.map Assumption.toJson)),
    ("constraints", .array (p.constraints.map FlowConstraint.toJson))]

end LabelInference
