import LabelInference.Json.Reader
import LabelInference.Problem.Document
import LabelInference.Toml.Reader

namespace LabelInference

inductive FileFormat where
  | json
  | toml
  deriving DecidableEq

inductive FileError where
  | unsupportedFormat (path : String)
  | malformed (format : FileFormat) (path : String)
  deriving DecidableEq

def FileFormat.name : FileFormat → String
  | .json => "JSON"
  | .toml => "TOML"

def FileError.message : FileError → String
  | .unsupportedFormat path =>
    "unsupported problem file extension for " ++ path ++ "; expected .json or .toml"
  | .malformed format path => "failed to parse " ++ format.name ++ " problem " ++ path

namespace Problem

-- What stands behind the last point of a name, if something stands before it.
def nameExtension? (name : List Char) : Option (List Char) :=
  let reversed := name.reverse
  match reversed.dropWhile (· ≠ '.') with
  | '.' :: _ :: _ => some (reversed.takeWhile (· ≠ '.')).reverse
  | _ => none

-- The parts of a path between slashes. Empty parts and single points do not count.
def pathParts (path : String) : List (List Char) :=
  (path.toList.splitBy fun c d => c ≠ '/' ∧ d ≠ '/').filter fun part => part ≠ ['/'] ∧ part ≠ ['.']

def extension? (path : String) : Option (List Char) :=
  match (pathParts path).getLast? with
  | none | some ['.', '.'] => none
  | some name => nameExtension? name

def format? (path : String) : Option FileFormat :=
  match extension? path with
  | some ['j', 's', 'o', 'n'] => some .json
  | some ['t', 'o', 'm', 'l'] => some .toml
  | _ => none

-- How deep the containers of a JSON document are nested in each other.
def nestingLimit : Nat := 127

mutual

-- Fields of a label that are passed over do not count, whatever they hold.
def nesting (inLabel : Bool) : Json → Nat
  | .array items => itemsNesting items + 1
  | .object members => membersNesting inLabel members + 1
  | _ => 0

def itemsNesting : List Json → Nat
  | [] => 0
  | item :: rest => max (nesting false item) (itemsNesting rest)

def membersNesting (inLabel : Bool) : List (String × Json) → Nat
  | [] => 0
  | (name, value) :: rest =>
    let here :=
      if inLabel && name ≠ "confidentiality" && name ≠ "integrity" then 0
      else nesting (name = "label") value
    max here (membersNesting inLabel rest)

end

def ofDocument? : FileFormat → (document : String) → Option Problem
  | .json, document => do
    let tree ← Json.read document
    if nesting false tree ≤ nestingLimit then ofJson? .json tree else none
  | .toml, document => do ofJson? .toml (← Toml.read document)

def parse (path document : String) : Except FileError Problem :=
  match format? path with
  | none => .error (.unsupportedFormat path)
  | some format =>
    match ofDocument? format document with
    | none => .error (.malformed format path)
    | some p => .ok p

end Problem

end LabelInference
