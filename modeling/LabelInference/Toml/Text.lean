import LabelInference.Hex

namespace LabelInference.Toml

-- Apart from line breaks, the tab is the only control character that may stand in a document.
def isPrintable (c : Char) : Bool :=
  c = '\t' || (0x20 ≤ c.toNat && c.toNat ≠ 0x7f)

def isBlank (c : Char) : Bool :=
  c = ' ' || c = '\t'

def lineBreak? : List Char → Option (List Char)
  | '\n' :: cs | '\r' :: '\n' :: cs => some cs
  | _ => none

def simpleEscape? : Char → Option Char
  | '"' => some '"'
  | '\\' => some '\\'
  | 'b' => some '\x08'
  | 't' => some '\t'
  | 'n' => some '\n'
  | 'f' => some '\x0c'
  | 'r' => some '\r'
  | _ => none

-- The character with a code point written in hexadecimal; surrogates are none.
def codePoint? (digits : List Char) : Option Char := do
  let u ← hexNumber? digits
  if u < 0xD800 ∨ (0xE000 ≤ u ∧ u < 0x110000) then some (Char.ofNat u) else none

def push (c : Char) : Option (List Char × List Char) → Option (List Char × List Char) :=
  Option.map fun (text, rest) => (c :: text, rest)

def basicText : List Char → Option (List Char × List Char)
  | [] => none
  | '"' :: cs => some ([], cs)
  | '\\' :: 'u' :: a :: b :: c :: d :: cs =>
    (codePoint? [a, b, c, d]).bind fun u => push u (basicText cs)
  | '\\' :: 'U' :: a :: b :: c :: d :: e :: f :: g :: h :: cs =>
    (codePoint? [a, b, c, d, e, f, g, h]).bind fun u => push u (basicText cs)
  | '\\' :: c :: cs => (simpleEscape? c).bind fun u => push u (basicText cs)
  | c :: cs => if isPrintable c then push c (basicText cs) else none

-- Up to two quotes may stand before the closing ones. After a backslash at the end of a line, blanks
-- and line breaks are skipped.
def basicLines (skipping : Bool) : List Char → Option (List Char × List Char)
  | [] => none
  | '"' :: '"' :: '"' :: '"' :: '"' :: cs => some (['"', '"'], cs)
  | '"' :: '"' :: '"' :: '"' :: cs => some (['"'], cs)
  | '"' :: '"' :: '"' :: cs => some ([], cs)
  | '\\' :: 'u' :: a :: b :: c :: d :: cs =>
    (codePoint? [a, b, c, d]).bind fun u => push u (basicLines false cs)
  | '\\' :: 'U' :: a :: b :: c :: d :: e :: f :: g :: h :: cs =>
    (codePoint? [a, b, c, d, e, f, g, h]).bind fun u => push u (basicLines false cs)
  | '\\' :: c :: cs =>
    match simpleEscape? c with
    | some u => push u (basicLines false cs)
    | none =>
      if isBlank c && (lineBreak? (cs.dropWhile isBlank)).isSome || c = '\n' ||
          (c = '\r' && cs.head? = some '\n') then
        basicLines true cs
      else none
  | '\r' :: '\n' :: cs => if skipping then basicLines true cs else push '\n' (basicLines false cs)
  | c :: cs =>
    if skipping && (isBlank c || c = '\n') then basicLines true cs
    else if isPrintable c || c = '\n' then push c (basicLines false cs)
    else none

def literalText : List Char → Option (List Char × List Char)
  | [] => none
  | '\'' :: cs => some ([], cs)
  | c :: cs => if isPrintable c then push c (literalText cs) else none

def literalLines : List Char → Option (List Char × List Char)
  | [] => none
  | '\'' :: '\'' :: '\'' :: '\'' :: '\'' :: cs => some (['\'', '\''], cs)
  | '\'' :: '\'' :: '\'' :: '\'' :: cs => some (['\''], cs)
  | '\'' :: '\'' :: '\'' :: cs => some ([], cs)
  | '\r' :: '\n' :: cs => push '\n' (literalLines cs)
  | c :: cs => if isPrintable c || c = '\n' then push c (literalLines cs) else none

-- A line break right after the opening quotes does not belong to the text.
def dropLineBreak (cs : List Char) : List Char :=
  (lineBreak? cs).getD cs

-- Text on one line, as a key may be written too.
def line? : List Char → Option (String × List Char)
  | '"' :: cs => (basicText cs).map fun (text, rest) => (String.ofList text, rest)
  | '\'' :: cs => (literalText cs).map fun (text, rest) => (String.ofList text, rest)
  | _ => none

def text? : List Char → Option (String × List Char)
  | '"' :: '"' :: '"' :: cs =>
    (basicLines false (dropLineBreak cs)).map fun (text, rest) => (String.ofList text, rest)
  | '\'' :: '\'' :: '\'' :: cs =>
    (literalLines (dropLineBreak cs)).map fun (text, rest) => (String.ofList text, rest)
  | cs => line? cs

end LabelInference.Toml
