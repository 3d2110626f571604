import LabelInference.Json.Printer
import LabelInference.Problem.Solving

namespace LabelInference

namespace Report

def labelJson (l : Label Principal) : Json :=
  .object [("confidentiality", .string l.confidentiality.text),
    ("integrity", .string l.integrity.text), ("label", .string l.text)]

def solutionText (s : LabelSolution Principal String) : String :=
  String.join (s.unknowns.map fun x => x ++ ": " ++ (s.get x).text ++ "\n")

-- The members of every object are sorted by name, where the text lists unknowns by first mention.
def solutionJson (s : LabelSolution Principal String) : Json :=
  .object [("labels", .object (s.unknowns.mergeSort.map fun x => (x, labelJson (s.get x)))),
    ("status", .string "ok")]

def violationsText (vs : List Violation) : String :=
  String.join (vs.map fun v => "violation: " ++ v.text ++ "\n")

def violationJson (v : Violation) : Json :=
  .object [("constraint", .number (toString v.index)), ("from", labelJson v.source),
    ("reason", (v.reason.map Json.string).getD .null), ("to", labelJson v.sink)]

def violationsJson (vs : List Violation) : Json :=
  .object [("status", .string "unsatisfiable"), ("violations", .array (vs.map violationJson))]

end Report

end LabelInference
