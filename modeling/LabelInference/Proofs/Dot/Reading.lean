import LabelInference.ConstraintSystem.Dot

namespace LabelInference.Dot

-- A quoted string is kept as it stands between the quotes.
inductive Id where
  | word (text : List Char)
  | quoted (raw : List Char)
  deriving DecidableEq

inductive Token where
  | id (i : Id)
  | arrow
  | sign (c : Char)
  deriving DecidableEq

def isBlank (c : Char) : Bool :=
  c = ' ' || c = '\n' || c = '\t' || c = '\r'

def isSign (c : Char) : Bool :=
  c = '{' || c = '}' || c = '[' || c = ']' || c = '=' || c = ','

def isWordChar (c : Char) : Bool :=
  c.isAlphanum || c = '_'

-- A character in front of a word belongs to it, unless something stood between them.
def pushWordChar (c : Char) (adjacent : Bool) : List Token → List Token
  | .id (.word text) :: ts => if adjacent then .id (.word (c :: text)) :: ts
    else .id (.word [c]) :: .id (.word text) :: ts
  | ts => .id (.word [c]) :: ts

mutual

def tokens : List Char → Option (List Token)
  | [] => some []
  | '"' :: cs => (quotedTokens cs).map fun (raw, ts) => .id (.quoted raw) :: ts
  | '-' :: '>' :: cs => (tokens cs).map (.arrow :: ·)
  | c :: cs =>
    if isBlank c then tokens cs
    else if isSign c then (tokens cs).map (.sign c :: ·)
    else if isWordChar c then (tokens cs).map (pushWordChar c (cs.head?.any isWordChar))
    else none

-- Inside quotes: the string up to the closing quote, with the tokens behind it.
def quotedTokens : List Char → Option (List Char × List Token)
  | [] => none
  | '"' :: cs => (tokens cs).map fun ts => ([], ts)
  | '\\' :: c :: cs => (quotedTokens cs).map fun (raw, ts) => ('\\' :: c :: raw, ts)
  | c :: cs => (quotedTokens cs).map fun (raw, ts) => (c :: raw, ts)

end

-- A statement with its attributes as they are written.
structure Item where
  subject : Subject
  attributes : List (List Char × Id)
  deriving DecidableEq

def number? (digits : List Char) : Option Nat :=
  if digits ≠ [] ∧ digits.all Char.isDigit then some (Nat.ofDigitChars 10 digits 0) else none

mutual

def items : List Token → Option (List Item)
  | [.sign '}'] => some []
  | .id (.word i) :: .sign '[' :: ts => do
    let i ← number? i
    let (attributes, rest) ← attributesThenItems ts
    return ⟨.node i, attributes⟩ :: rest
  | .id (.word i) :: .arrow :: .id (.word j) :: .sign '[' :: ts => do
    let i ← number? i
    let j ← number? j
    let (attributes, rest) ← attributesThenItems ts
    return ⟨.arrow i j, attributes⟩ :: rest
  | _ => none

-- Inside brackets: the attributes of the present statement, with the statements behind it.
def attributesThenItems : List Token → Option (List (List Char × Id) × List Item)
  | .id (.word key) :: .sign '=' :: .id value :: .sign ']' :: ts =>
    (items ts).map fun rest => ([(key, value)], rest)
  | .id (.word key) :: .sign '=' :: .id value :: .sign ',' :: ts =>
    (attributesThenItems ts).map fun (attributes, rest) => ((key, value) :: attributes, rest)
  | _ => none

end

-- A character in front of the first line.
def pushChar (c : Char) : List (List Char) → List (List Char)
  | [] => [[c]]
  | line :: lines => (c :: line) :: lines

-- The lines of a quoted string with its escapes undone. No other escapes are known than those for a
-- line break, a backslash and a quote.
def lines? : List Char → Option (List (List Char))
  | [] => some [[]]
  | '\\' :: 'n' :: cs => (lines? cs).map ([] :: ·)
  | '\\' :: '\\' :: cs => (lines? cs).map (pushChar '\\')
  | '\\' :: '"' :: cs => (lines? cs).map (pushChar '"')
  | c :: cs => if c = '\\' ∨ c = '"' then none else (lines? cs).map (pushChar c)

def stylePair? : List Char × Id → Option (String × String)
  | (key, .word value) => some (String.ofList key, String.ofList value)
  | (_, .quoted _) => none

def Item.statement? (item : Item) : Option Statement :=
  match item.attributes with
  | (key, .quoted raw) :: style => do
    if key ≠ "label".toList then none
    let lines ← lines? raw
    let style ← style.mapM stylePair?
    return ⟨item.subject, lines.map String.ofList, style⟩
  | _ => none

def read (text : String) : Option (List Statement) := do
  match ← tokens text.toList with
  | .id (.word name) :: .sign '{' :: ts =>
    if name = "digraph".toList then (← items ts).mapM Item.statement? else none
  | _ => none

end LabelInference.Dot
