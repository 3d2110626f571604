import LabelInference.ConstraintSystem.Basic

namespace LabelInference

universe u v w

namespace Dot

inductive Subject where
  | node (index : Nat)
  | arrow (source target : Nat)
  deriving DecidableEq

structure Statement where
  subject : Subject
  label : List String
  style : List (String × String)
  deriving DecidableEq

-- Puts a backslash before every occurrence of a character.
def escapeEach (escaped : Char) (line : List Char) : List Char :=
  line.flatMap fun c => if c = escaped then ['\\', c] else [c]

-- The backslashes come first, so that those put before the quotes are not escaped in turn.
def escape (line : String) : String :=
  String.ofList (escapeEach '"' (escapeEach '\\' line.toList))

def Subject.text : Subject → String
  | .node index => toString index
  | .arrow source target => toString source ++ " -> " ++ toString target

def Statement.attributes (s : Statement) : List String :=
  ("label = \"" ++ "\\n".intercalate (s.label.map escape) ++ "\"") ::
    s.style.map fun (key, value) => key ++ " = " ++ value

def Statement.text (s : Statement) : String :=
  "    " ++ s.subject.text ++ " [ " ++ ", ".intercalate s.attributes ++ " ]\n"

def drawing (statements : List Statement) : String :=
  "digraph \x7b\n" ++ String.join (statements.map Statement.text) ++ "\x7d\n"

end Dot

namespace ConstraintSystem

variable {γ : Type u} {ν : Type v} {ρ : Type w}
variable [Join γ] [Meet γ] [Imply γ] [ChainBound γ] [DecidableEq γ] [DecidableEq ν]
variable [ToString γ] [ToString ν]

-- An unknown is shown with its value; constants are filled gray.
def nodeStatement (index : Nat) (value : γ) : AtomicTerm γ ν → Dot.Statement
  | .var x => ⟨.node index, [toString x, toString value], []⟩
  | .const c => ⟨.node index, [toString c], [("color", "gray"), ("style", "filled")]⟩

def arcColor {n : Nat} (s : ConstraintSystem γ ν ρ) (values : Vector γ n) (arc : Dataflow.Arc n (Edge γ)) :
    String :=
  if s.isViolated values arc then "red"
  else if arc.label.isIdentity then "black"
  else "blue"

def arcStatement {n : Nat} (s : ConstraintSystem γ ν ρ) (values : Vector γ n)
    (arc : Dataflow.Arc n (Edge γ)) : Dot.Statement :=
  ⟨.arrow arc.source arc.target, [arc.label.text], [("color", s.arcColor values arc)]⟩

def statements (s : ConstraintSystem γ ν ρ) : List Dot.Statement :=
  let values := s.outcome.values
  (s.nodes.zip values.toList).mapIdx (fun index (term, value) => nodeStatement index value term) ++
    s.graph.arcs.map (s.arcStatement values)

def dot (s : ConstraintSystem γ ν ρ) : String :=
  Dot.drawing s.statements

end ConstraintSystem

end LabelInference
