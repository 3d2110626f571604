import LabelInference.Hex

namespace LabelInference.Toml

-- Digits with single underscores between them.
def isDigitRun (isDigit : Char → Bool) : List Char → Bool
  | [] => false
  | [c] => isDigit c
  | c :: '_' :: d :: cs => isDigit c && isDigitRun isDigit (d :: cs)
  | c :: d :: cs => isDigit c && isDigitRun isDigit (d :: cs)

def isDecimal : List Char → Bool
  | ['0'] => true
  | '0' :: _ => false
  | cs => isDigitRun Char.isDigit cs

-- The value of a run of digits, underscores apart.
def magnitude (base : Nat) (digits : List Char) : Nat :=
  digits.foldl (fun value c => ((hexValue? c).map (base * value + ·)).getD value) 0

def isDigitOf (base : Nat) (c : Char) : Bool :=
  (hexValue? c).any (· < base)

-- Integers have 64 bits, one of them for the sign.
def integerLimit : Nat := 0x8000000000000000

def isInteger : List Char → Bool
  | '0' :: 'x' :: cs => isDigitRun (isDigitOf 16) cs && magnitude 16 cs < integerLimit
  | '0' :: 'o' :: cs => isDigitRun (isDigitOf 8) cs && magnitude 8 cs < integerLimit
  | '0' :: 'b' :: cs => isDigitRun (isDigitOf 2) cs && magnitude 2 cs < integerLimit
  | '-' :: cs => isDecimal cs && magnitude 10 cs ≤ integerLimit
  | '+' :: cs => isDecimal cs && magnitude 10 cs < integerLimit
  | cs => isDecimal cs && magnitude 10 cs < integerLimit

-- The number `significand` times ten to the `exponent`.
structure Decimal where
  significand : Nat
  exponent : Int
  deriving DecidableEq

namespace Decimal

-- A power of ten with more digits than the other side has bits decides the comparison already.
def isAtLeast (bound : Nat) (d : Decimal) : Bool :=
  match d.exponent with
  | .ofNat k => bound ≤ d.significand * Nat.pow 10 (min k (bound.log2 + 1))
  | .negSucc k => bound * Nat.pow 10 (min (k + 1) (d.significand.log2 + 1)) ≤ d.significand

theorem lt_pow_of_log2_lt {n k : Nat} (h : n.log2 < k) : n < Nat.pow 10 k :=
  calc n < Nat.pow 2 (n.log2 + 1) := Nat.lt_log2_self
    _ ≤ Nat.pow 2 k := Nat.pow_le_pow_right (by decide) h
    _ ≤ Nat.pow 10 k := Nat.pow_le_pow_left (by decide) k

theorem isAtLeast_ofNat {bound m k : Nat} :
    isAtLeast bound ⟨m, .ofNat k⟩ = true ↔ bound ≤ m * Nat.pow 10 k := by
  simp only [isAtLeast, decide_eq_true_eq]
  by_cases h : k ≤ bound.log2 + 1
  · rw [Nat.min_eq_left h]
  · rw [Nat.min_eq_right (by omega)]
    rcases Nat.eq_zero_or_pos m with rfl | hm
    · simp
    · have hcap := lt_pow_of_log2_lt (Nat.lt_succ_self bound.log2)
      have hall := lt_pow_of_log2_lt (show bound.log2 < k by omega)
      exact iff_of_true (Nat.le_trans (Nat.le_of_lt hcap) (Nat.le_mul_of_pos_left _ hm))
        (Nat.le_trans (Nat.le_of_lt hall) (Nat.le_mul_of_pos_left _ hm))

theorem isAtLeast_negSucc {bound m k : Nat} (hbound : 0 < bound) :
    isAtLeast bound ⟨m, .negSucc k⟩ = true ↔ bound * Nat.pow 10 (k + 1) ≤ m := by
  simp only [isAtLeast, decide_eq_true_eq]
  by_cases h : k + 1 ≤ m.log2 + 1
  · rw [Nat.min_eq_left h]
  · rw [Nat.min_eq_right (by omega)]
    have hcap := lt_pow_of_log2_lt (Nat.lt_succ_self m.log2)
    have hall := lt_pow_of_log2_lt (show m.log2 < k + 1 by omega)
    exact iff_of_false
      (Nat.not_le_of_lt (Nat.lt_of_lt_of_le hcap (Nat.le_mul_of_pos_left _ hbound)))
      (Nat.not_le_of_lt (Nat.lt_of_lt_of_le hall (Nat.le_mul_of_pos_left _ hbound)))

end Decimal

-- Halfway from the greatest number of double precision to the power of two that follows it. From
-- here on the nearest number is infinite.
def floatLimit : Nat := (Nat.pow 2 54 - 1) * Nat.pow 2 970

def isDigitOrMark (c : Char) : Bool :=
  c.isDigit || c = '_'

-- Digits that come after an exponent has become this large are not read.
def exponentLimit : Nat := 0x10000

def exponentMagnitude (digits : List Char) : Nat :=
  digits.foldl (fun value c => if value < exponentLimit then magnitude 10 [c] + 10 * value else value)
    0

def exponent? : List Char → Option Int
  | [] => some 0
  | c :: cs =>
    let (isNegative, digits) := match cs with
      | '-' :: ds => (true, ds)
      | '+' :: ds => (false, ds)
      | ds => (false, ds)
    if (c = 'e' || c = 'E') && isDigitRun Char.isDigit digits then
      let magnitude : Int := exponentMagnitude (digits.filter Char.isDigit)
      some (if isNegative then -magnitude else magnitude)
    else none

-- A float has a fraction or an exponent.
def unsignedFloat? (cs : List Char) : Option Decimal :=
  let whole := cs.takeWhile isDigitOrMark
  if isDecimal whole then
    match cs.dropWhile isDigitOrMark with
    | [] => none
    | '.' :: ds =>
      let fraction := ds.takeWhile isDigitOrMark
      if isDigitRun Char.isDigit fraction then
        (exponent? (ds.dropWhile isDigitOrMark)).map fun exponent =>
          ⟨magnitude 10 (whole ++ fraction), exponent - (fraction.filter Char.isDigit).length⟩
      else none
    | es => (exponent? es).map fun exponent => ⟨magnitude 10 whole, exponent⟩
  else none

def isNamedFloat (cs : List Char) : Bool :=
  cs = ['i', 'n', 'f'] || cs = ['n', 'a', 'n']

def isPositiveFloat (cs : List Char) : Bool :=
  isNamedFloat cs || (unsignedFloat? cs).any fun d => !d.isAtLeast floatLimit

def isFloat : List Char → Bool
  | '-' :: cs => isNamedFloat cs || (unsignedFloat? cs).isSome
  | '+' :: cs => isPositiveFloat cs
  | cs => isPositiveFloat cs

end LabelInference.Toml
