import LabelInference.Hex
import LabelInference.Json.Basic

namespace LabelInference.Json

inductive Token where
  | openArray
  | closeArray
  | openObject
  | closeObject
  | comma
  | colon
  -- No text if an escape leaves half of a surrogate pair.
  | text (content : Option String)
  | scalar (value : Json)

-- The characters of a sequence of code points in which escapes may have put surrogates.
def pairSurrogates : List Nat → Option (List Char)
  | [] => some []
  | [u] => if u < 0xD800 ∨ 0xE000 ≤ u then some [Char.ofNat u] else none
  | u :: v :: rest =>
    if u < 0xD800 ∨ 0xE000 ≤ u then (pairSurrogates (v :: rest)).map (Char.ofNat u :: ·)
    else if u < 0xDC00 ∧ 0xDC00 ≤ v ∧ v < 0xE000 then
      (pairSurrogates rest).map (Char.ofNat (0x10000 + (u - 0xD800) * 0x400 + (v - 0xDC00)) :: ·)
    else none

def Token.ofUnits (reversed : List Nat) : Token :=
  .text ((pairSurrogates reversed.reverse).map String.ofList)

def isNumberChar (c : Char) : Bool :=
  c.isDigit || c = '-' || c = '+' || c = '.' || c = 'e' || c = 'E'

-- At least one digit; the rest after all of them.
def digits? : List Char → Option (List Char)
  | c :: cs => if c.isDigit then some (cs.dropWhile Char.isDigit) else none
  | [] => none

def isExponent : List Char → Bool
  | [] => true
  | c :: cs =>
    (c = 'e' || c = 'E') &&
      digits? (match cs with
        | '+' :: ds | '-' :: ds => ds
        | ds => ds) = some []

def isFraction : List Char → Bool
  | '.' :: cs => (digits? cs).any isExponent
  | cs => isExponent cs

def isUnsigned : List Char → Bool
  | '0' :: cs => isFraction cs
  | cs => (digits? cs).any isFraction

def isNumber : List Char → Bool
  | '-' :: cs => isUnsigned cs
  | cs => isUnsigned cs

def Token.ofNumber (reversed : List Char) : Option Token :=
  let literal := reversed.reverse
  if isNumber literal then some (.scalar (.number (String.ofList literal))) else none

def simpleEscape? : Char → Option Nat
  | '"' => some '"'.toNat
  | '\\' => some '\\'.toNat
  | '/' => some '/'.toNat
  | 'b' => some 8
  | 'f' => some 12
  | 'n' => some 10
  | 'r' => some 13
  | 't' => some 9
  | _ => none

mutual

def tokens : List Char → Option (List Token)
  | [] => some []
  | ' ' :: cs | '\t' :: cs | '\n' :: cs | '\r' :: cs => tokens cs
  | '[' :: cs => (tokens cs).map (.openArray :: ·)
  | ']' :: cs => (tokens cs).map (.closeArray :: ·)
  | '{' :: cs => (tokens cs).map (.openObject :: ·)
  | '}' :: cs => (tokens cs).map (.closeObject :: ·)
  | ',' :: cs => (tokens cs).map (.comma :: ·)
  | ':' :: cs => (tokens cs).map (.colon :: ·)
  | '"' :: cs => textTokens [] cs
  | 'n' :: 'u' :: 'l' :: 'l' :: cs => (tokens cs).map (.scalar .null :: ·)
  | 't' :: 'r' :: 'u' :: 'e' :: cs => (tokens cs).map (.scalar (.bool true) :: ·)
  | 'f' :: 'a' :: 'l' :: 's' :: 'e' :: cs => (tokens cs).map (.scalar (.bool false) :: ·)
  | c :: cs =>
    if !isNumberChar c then none
    else if cs.head?.any isNumberChar then numberTokens [c] cs
    else do return (← Token.ofNumber [c]) :: (← tokens cs)

-- Inside quotes: control characters must be escaped.
def textTokens (read : List Nat) : List Char → Option (List Token)
  | [] => none
  | '"' :: cs => (tokens cs).map (.ofUnits read :: ·)
  | '\\' :: 'u' :: a :: b :: c :: d :: cs =>
    (hexNumber? [a, b, c, d]).bind fun u => textTokens (u :: read) cs
  | '\\' :: c :: cs => (simpleEscape? c).bind fun u => textTokens (u :: read) cs
  | c :: cs => if c.toNat < 0x20 then none else textTokens (c.toNat :: read) cs

-- Inside a number whose next character is the first one.
def numberTokens (read : List Char) : List Char → Option (List Token)
  | [] => none
  | c :: cs =>
    if cs.head?.any isNumberChar then numberTokens (c :: read) cs
    else do return (← Token.ofNumber (c :: read)) :: (← tokens cs)

end

end LabelInference.Json
