import Fluxion.Binary64.Basic
import Fluxion.Decimal

/-!
# Writing numbers

A number is written with six decimal places, rounded from its exact value, a half going to the even
neighbour; then the zeros at the end are left out, and the point if no place is left. The sign bit
shows as a minus even where all the digits are zeros.
-/

namespace Fluxion.Binary64

/-- The whole number nearest to `num / den`; halfway between two, the even one. -/
def roundHalfEven (num den : Nat) : Nat :=
  let quotient := num / den
  match compare (2 * (num % den)) den with
  | .lt => quotient
  | .eq => quotient + quotient % 2
  | .gt => quotient + 1

/-- The magnitude at a place in millionths, rounded. -/
def millionths (place : Nat) : Nat := roundHalfEven (unitsAt place * 1000000) unitsPerOne

/-- The decimal places of a fraction `rest / 10 ^ count`, without the zeros at the end. -/
def fractionDigits : Nat → Nat → List Char
  | 0, _ => []
  | count + 1, rest =>
    if rest = 0 then []
    else Nat.digitChar (rest / tenTo count) :: fractionDigits count (rest % tenTo count)

/-- A number of millionths in decimal digits: a point stands between the whole part and the places
unless there are none. -/
def writeMillionths (n : Nat) : List Char :=
  let whole := Nat.toDigits 10 (n / 1000000)
  if n % 1000000 = 0 then whole else whole ++ '.' :: fractionDigits 6 (n % 1000000)

/-- The minus that a sign bit shows as. -/
def writeSign (negative : Bool) : List Char := if negative then ['-'] else []

/-- The characters of a number. -/
def toList : Binary64 → List Char
  | .finite negative place => writeSign negative ++ writeMillionths (millionths place)
  | .infinite negative => writeSign negative ++ ['i', 'n', 'f']
  | .nan => ['N', 'a', 'N']

/-- The text of a number. -/
def text (value : Binary64) : String := String.ofList value.toList

/-! ### Places -/

theorem fractionDigits_zero (count : Nat) : fractionDigits count 0 = [] := by
  cases count <;> rfl

/-- At most as many places are written as were asked for. -/
theorem length_fractionDigits_le (count rest : Nat) : (fractionDigits count rest).length ≤ count := by
  induction count generalizing rest with
  | zero => simp [fractionDigits]
  | succ count ih =>
    unfold fractionDigits
    split
    · simp
    · simpa using ih (rest % tenTo count)

end Fluxion.Binary64
