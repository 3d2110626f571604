import LabelInference.Json.Token

namespace LabelInference.Json

-- A container whose next value is being read, with what it already holds, most recent first.
inductive Frame where
  | item (before : List Json)
  | member (before : List (Option String × Json)) (name : Option String)

def ofMembers (reversed : List (Option String × Json)) : Json :=
  match reversed.reverse.mapM fun (name, value) => name.map fun name => (name, value) with
  | some members => .object members
  | none => .unreadable

def ofText : Option String → Json
  | some text => .string text
  | none => .unreadable

mutual

def readValue (frames : List Frame) : List Token → Option Json
  | .scalar value :: ts => readNext value frames ts
  | .text content :: ts => readNext (ofText content) frames ts
  | .openArray :: .closeArray :: ts => readNext (.array []) frames ts
  | .openArray :: ts => readValue (.item [] :: frames) ts
  | .openObject :: .closeObject :: ts => readNext (.object []) frames ts
  | .openObject :: .text name :: .colon :: ts => readValue (.member [] name :: frames) ts
  | _ => none

def readNext (value : Json) : List Frame → List Token → Option Json
  | [], [] => some value
  | .item before :: frames, .comma :: ts => readValue (.item (value :: before) :: frames) ts
  | .item before :: frames, .closeArray :: ts =>
    readNext (.array (value :: before).reverse) frames ts
  | .member before name :: frames, .comma :: .text next :: .colon :: ts =>
    readValue (.member ((name, value) :: before) next :: frames) ts
  | .member before name :: frames, .closeObject :: ts =>
    readNext (ofMembers ((name, value) :: before)) frames ts
  | _, _ => none

end

def read (document : String) : Option Json :=
  (tokens document.toList).bind (readValue [])

end LabelInference.Json
