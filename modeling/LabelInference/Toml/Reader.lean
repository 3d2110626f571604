import LabelInference.Toml.Scalar
import LabelInference.Toml.Table
import LabelInference.Toml.Text

namespace LabelInference.Toml

abbrev Read (β : Type) := List Char → Option (β × List Char)

-- Arrays and tables on one line may be nested, and keys dotted, to less than this depth.
def depthLimit : Nat := 80

def skipBlanks (cs : List Char) : List Char :=
  cs.dropWhile isBlank

-- The rest after a comment; it ends before a line break or any other control character.
def skipComment : List Char → List Char
  | '#' :: cs => cs.dropWhile isPrintable
  | cs => cs

-- The rest of a line may hold a comment.
def endLine? (cs : List Char) : Option (List Char) :=
  match skipComment (skipBlanks cs) with
  | [] => some []
  | rest => lineBreak? rest

def isBareKeyChar (c : Char) : Bool :=
  c.isAlphanum || c = '_' || c = '-'

def simpleKey? (cs : List Char) : Option (String × List Char) :=
  match cs.takeWhile isBareKeyChar with
  | [] => line? cs
  | key => some (String.ofList key, cs.dropWhile isBareKeyChar)

def dottedKey? : (bound : Nat) → Read (List String)
  | 0, _ => none
  | bound + 1, cs => do
    let (key, rest) ← simpleKey? (skipBlanks cs)
    match skipBlanks rest with
    | '.' :: rest =>
      let (keys, rest) ← dottedKey? bound rest
      return (key :: keys, rest)
    | rest => return ([key], rest)

-- The keys before the last one, and the last one.
def keyPath? (cs : List Char) : Option ((List String × String) × List Char) := do
  let (keys, rest) ← dottedKey? (depthLimit - 1) cs
  let key ← keys.getLast?
  return ((keys.dropLast, key), rest)

def entry? (value? : Read Json) (cs : List Char) : Option (Entry × List Char) := do
  let ((path, key), rest) ← keyPath? cs
  match rest with
  | '=' :: rest =>
    let (value, rest) ← value? (skipBlanks rest)
    return (⟨path, key, value⟩, rest)
  | _ => none

-- The rest after blanks, comments and line breaks, from inside a comment or outside of one.
def skipLines : (inComment : Bool) → List Char → List Char
  | _, [] => []
  | _, '\n' :: cs => skipLines false cs
  | _, '\r' :: '\n' :: cs => skipLines false cs
  | true, c :: cs => if isPrintable c then skipLines true cs else c :: cs
  | false, c :: cs =>
    if isBlank c then skipLines false cs
    else if c = '#' then skipLines true cs
    else c :: cs

def array? (value? : Read Json) : (bound : Nat) → Read (List Json)
  | 0, _ => none
  | bound + 1, cs =>
    match skipLines false cs with
    | ']' :: rest => some ([], rest)
    | rest => do
      let (value, rest) ← value? rest
      match skipLines false rest with
      | ']' :: rest => return ([value], rest)
      | ',' :: rest =>
        let (values, rest) ← array? value? bound rest
        return (value :: values, rest)
      | _ => none

-- The entries of a table on one line, after the first of which a comma must stand before each.
def entries? (value? : Read Json) : (bound : Nat) → Read (List Entry)
  | 0, _ => none
  | bound + 1, cs => do
    let (entry, rest) ← entry? value? cs
    match skipBlanks rest with
    | '}' :: rest => return ([entry], rest)
    | ',' :: rest =>
      let (entries, rest) ← entries? value? bound rest
      return (entry :: entries, rest)
    | _ => none

def inlineTable? (value? : Read Json) (bound : Nat) (cs : List Char) : Option (Json × List Char) :=
  match skipBlanks cs with
  | '}' :: rest => some (.object [], rest)
  | rest => do
    let (entries, rest) ← entries? value? bound rest
    return (← inlineTable entries, rest)

-- Reads a value that holds values no deeper than `room`.
def value? (bound : Nat) : (room : Nat) → Read Json
  | _, '"' :: cs => (text? ('"' :: cs)).map fun (text, rest) => (.string text, rest)
  | _, '\'' :: cs => (text? ('\'' :: cs)).map fun (text, rest) => (.string text, rest)
  | room + 1, '[' :: cs =>
    (array? (value? bound room) bound cs).map fun (values, rest) => (.array values, rest)
  | room + 1, '{' :: cs => inlineTable? (value? bound room) bound cs
  | _, cs => scalar? cs

def statement? (value? : Read Json) (cs : List Char) : Option (Statement × List Char) :=
  match cs with
  | '[' :: '[' :: cs => do
    let ((path, key), rest) ← keyPath? cs
    match rest with
    | ']' :: ']' :: rest => return (.item path key, rest)
    | _ => none
  | '[' :: cs => do
    let ((path, key), rest) ← keyPath? cs
    match rest with
    | ']' :: rest => return (.table path key, rest)
    | _ => none
  | cs => do
    let (entry, rest) ← entry? value? cs
    return (.entry entry, rest)

def statements? (value? : Read Json) : (bound : Nat) → List Char → Option (List Statement)
  | 0, _ => none
  | bound + 1, cs =>
    match skipLines false cs with
    | [] => some []
    | rest => do
      let (statement, rest) ← statement? value? rest
      let rest ← endLine? rest
      return statement :: (← statements? value? bound rest)

-- A byte order mark may stand in front. Each part of the document takes a character at least, which bounds
-- the loops over them.
def read (document : String) : Option Json :=
  let cs := match document.toList with
    | '\ufeff' :: cs => cs
    | cs => cs
  let bound := cs.length + 1
  (statements? (value? bound (depthLimit - 1)) bound cs).bind documentOf

end LabelInference.Toml
