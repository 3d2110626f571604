import LabelInference.Json.Basic

namespace LabelInference.Toml

-- A table is defined once. One that dotted keys define belongs to the statements next to each other that do
-- so, and no header reopens it.
inductive Origin where
  -- By a header of its own.
  | header
  -- By the header of a table within it.
  | implied
  -- By dotted keys.
  | dotted
  deriving DecidableEq

inductive Node where
  | value (v : Json)
  | table (origin : Origin) (members : List (String × Node))
  -- An array of tables, the latest apart from the earlier ones, which are in reverse order.
  | tables (latest : List (String × Node)) (earlier : List (List (String × Node)))

abbrev Members := List (String × Node)

structure Table where
  origin : Origin
  members : Members

def Members.set (key : String) (node : Node) : Members → Members
  | [] => [(key, node)]
  | (k, n) :: rest => if k = key then (key, node) :: rest else (k, n) :: Members.set key node rest

-- Changes the table at the end of a path, and defines the tables on the way that are absent.
-- Dotted keys do not lead through tables that have a header.
def descend (dotted : Bool) (change : Table → Option Table) : List String → Table → Option Table
  | [], t => change t
  | key :: path, t =>
    let goOn := descend dotted change path
    match t.members.lookup key with
    | none => do
      let child ← goOn ⟨if dotted then .dotted else .implied, []⟩
      return { t with members := Members.set key (.table child.origin child.members) t.members }
    | some (.value _) => none
    | some (.table origin members) =>
      if dotted ∧ origin = .header then none
      else do
        let child ← goOn ⟨origin, members⟩
        return { t with members := Members.set key (.table child.origin child.members) t.members }
    | some (.tables latest earlier) => do
      let child ← goOn ⟨.header, latest⟩
      return { t with members := Members.set key (.tables child.members earlier) t.members }

-- Defines a key, behind the dotted keys of a path, in a table.
def Table.define (path : List String) (key : String) (v : Json) : Table → Option Table :=
  descend true (fun t =>
    if (t.origin = .dotted ↔ path = []) ∨ (t.members.lookup key).isSome then none
    else some { t with members := Members.set key (.value v) t.members }) path

-- Opens a table by its header.
def Table.openTable (path : List String) (key : String) : Table → Option Table :=
  descend false (fun t =>
    match t.members.lookup key with
    | none => some { t with members := Members.set key (.table .header []) t.members }
    | some (.table .implied members) =>
      some { t with members := Members.set key (.table .header members) t.members }
    | some _ => none) path

-- Adds a table to an array of tables.
def Table.openItem (path : List String) (key : String) : Table → Option Table :=
  descend false (fun t =>
    match t.members.lookup key with
    | none => some { t with members := Members.set key (.tables [] []) t.members }
    | some (.tables latest earlier) =>
      some { t with members := Members.set key (.tables [] (latest :: earlier)) t.members }
    | some _ => none) path

mutual

def Node.toJson : Node → Json
  | .value v => v
  | .table _ members => .object (membersToJson members)
  | .tables latest earlier =>
    .array ((.object (membersToJson latest) :: tablesToJson earlier).reverse)

def membersToJson : List (String × Node) → List (String × Json)
  | [] => []
  | (key, node) :: rest => (key, node.toJson) :: membersToJson rest

def tablesToJson : List (List (String × Node)) → List Json
  | [] => []
  | members :: rest => .object (membersToJson members) :: tablesToJson rest

end

def Table.toJson (t : Table) : Json :=
  .object (membersToJson t.members)

-- A key with the dotted keys before it, and its value.
structure Entry where
  path : List String
  key : String
  value : Json

inductive Statement where
  | entry (e : Entry)
  | table (path : List String) (key : String)
  | item (path : List String) (key : String)

-- The document so far and the path of the table that entries go to.
structure Progress where
  root : Table
  place : List String

def Progress.step (p : Progress) : Statement → Option Progress
  | .entry e => do
    let root ← descend false (Table.define e.path e.key e.value) p.place p.root
    return { p with root }
  | .table path key => do
    let root ← p.root.openTable path key
    return ⟨root, path ++ [key]⟩
  | .item path key => do
    let root ← p.root.openItem path key
    return ⟨root, path ++ [key]⟩

def documentOf (statements : List Statement) : Option Json := do
  let p ← statements.foldlM Progress.step ⟨⟨.header, []⟩, []⟩
  return p.root.toJson

-- A table on one line is complete by itself.
def inlineTable (entries : List Entry) : Option Json := do
  let t ← entries.foldlM (fun (t : Table) e => t.define e.path e.key e.value) ⟨.header, []⟩
  return t.toJson

end LabelInference.Toml
