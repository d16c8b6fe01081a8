/-!
# Decimals

A decimal is digits, with at most one point among them and an optional power of ten behind them. It
is kept exactly, as a coefficient and a power of ten. A power of ten far outside the range of
doubles can be brought back to its edge, where a double is already infinite or zero, so that no
decimal makes large powers.
-/

namespace Fluxion

/-- A power of ten. -/
def tenTo (exponent : Nat) : Nat := Nat.pow 10 exponent

theorem tenTo_succ (exponent : Nat) : tenTo (exponent + 1) = tenTo exponent * 10 := rfl

theorem tenTo_pos (exponent : Nat) : 0 < tenTo exponent := Nat.pow_pos (by decide)

/-- A decimal that is not negative: `coefficient * 10 ^ exponent`. -/
structure Decimal where
  /-- The digits, read as one whole number. -/
  coefficient : Nat
  /-- The power of ten that they are scaled by. -/
  exponent : Int
  deriving DecidableEq

namespace Decimal

/-- A sign, if the text begins with one, and the rest: whether it is a minus comes first. -/
def splitSign : List Char → Bool × List Char
  | '-' :: rest => (true, rest)
  | '+' :: rest => (false, rest)
  | text => (false, text)

/-- The whole number spelled by an optional sign and at least one digit. -/
def integer? (text : List Char) : Option Int :=
  let (negative, digits) := splitSign text
  if digits ≠ [] ∧ digits.all Char.isDigit then
    let value : Int := Nat.ofDigitChars 10 digits 0
    some (if negative then -value else value)
  else
    none

/-- The power of ten behind the digits: absent, or a letter `e` and a whole number. -/
def exponent? : List Char → Option Int
  | [] => some 0
  | c :: rest => if c = 'e' ∨ c = 'E' then integer? rest else none

/-- The digits behind a point, and what follows them. -/
def splitFraction : List Char → List Char × List Char
  | '.' :: rest => (rest.takeWhile Char.isDigit, rest.dropWhile Char.isDigit)
  | rest => ([], rest)

/-- The decimal spelled by digits, at least one in all, around an optional point, with an optional
power of ten behind them. -/
def ofList? (text : List Char) : Option Decimal :=
  let whole := text.takeWhile Char.isDigit
  let (fraction, rest) := splitFraction (text.dropWhile Char.isDigit)
  if whole ++ fraction = [] then
    none
  else
    (exponent? rest).map fun shift =>
      { coefficient := Nat.ofDigitChars 10 (whole ++ fraction) 0
        exponent := shift - fraction.length }

/-- The power of ten, brought back to where the value is sure to be infinite or zero if it lies
beyond: `10 ^ 400` exceeds every double, and a coefficient has at most as many decimal digits as
binary ones. -/
def boundedExponent (d : Decimal) : Int :=
  max (-(401 + d.coefficient.log2)) (min 400 d.exponent)

end Decimal

end Fluxion
