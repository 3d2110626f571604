import LabelInference.Json.Basic
import LabelInference.Toml.Number

namespace LabelInference.Toml

def isBetween (low high : Nat) (digits : List Char) : Bool :=
  digits.all Char.isDigit && low ≤ magnitude 10 digits && magnitude 10 digits ≤ high

def daysOfMonth (year month : Nat) : Nat :=
  if month = 2 then
    if year % 4 = 0 ∧ (year % 100 ≠ 0 ∨ year % 400 = 0) then 29 else 28
  else if month = 4 ∨ month = 6 ∨ month = 9 ∨ month = 11 then 30
  else 31

def isDate : List Char → Bool
  | [y, y', y'', y''', '-', m, m', '-', d, d'] =>
    let year := [y, y', y'', y''']
    isBetween 0 9999 year && isBetween 1 12 [m, m'] &&
      isBetween 1 (daysOfMonth (magnitude 10 year) (magnitude 10 [m, m'])) [d, d']
  | _ => false

def isOffset : List Char → Bool
  | [] | ['Z'] | ['z'] => true
  | [sign, h, h', ':', m, m'] =>
    (sign = '+' || sign = '-') && isBetween 0 23 [h, h'] && isBetween 0 59 [m, m']
  | _ => false

-- A time of day, and whether what follows it is acceptable.
def isTimeThen (isRest : List Char → Bool) : List Char → Bool
  | h :: h' :: ':' :: m :: m' :: ':' :: s :: s' :: cs =>
    isBetween 0 23 [h, h'] && isBetween 0 59 [m, m'] && isBetween 0 60 [s, s'] &&
      match cs with
      | '.' :: d :: ds => d.isDigit && isRest (ds.dropWhile Char.isDigit)
      | cs => isRest cs
  | _ => false

def isMoment (cs : List Char) : Bool :=
  isTimeThen List.isEmpty cs || isDate cs ||
    match cs.drop 10 with
    | c :: time => isDate (cs.take 10) && (c = 'T' || c = 't' || c = ' ') && isTimeThen isOffset time
    | [] => false

def isScalarChar (c : Char) : Bool :=
  c.isAlphanum || c = '_' || c = '+' || c = '-' || c = '.' || c = ':'

-- The characters of a scalar with what follows them. A blank may stand between a date and a time.
def splitScalar (cs : List Char) : List Char × List Char :=
  let lexeme := cs.takeWhile isScalarChar
  let rest := cs.dropWhile isScalarChar
  match rest with
  | ' ' :: c :: time =>
    if isDate lexeme && c.isDigit then
      (lexeme ++ ' ' :: (c :: time).takeWhile isScalarChar, (c :: time).dropWhile isScalarChar)
    else (lexeme, rest)
  | _ => (lexeme, rest)

-- A tree has no dates and times of its own. They are kept as they are spelled, as numbers are.
def scalar? (cs : List Char) : Option (Json × List Char) :=
  let (lexeme, rest) := splitScalar cs
  let literal := String.ofList lexeme
  if literal = "true" then some (.bool true, rest)
  else if literal = "false" then some (.bool false, rest)
  else if isInteger lexeme || isFloat lexeme || isMoment lexeme then some (.number literal, rest)
  else none

end LabelInference.Toml
