/-!
# Binary64 numbers

The numbers of formulas are doubles, the numbers of the binary64 format. A finite one is given by
its sign and by the place of its magnitude in the ascending list of all finite magnitudes, counted
from zero. The list starts with zero and the subnormal magnitudes, and every `2 ^ 52` places the
step from one magnitude to the next doubles, so a place and its magnitude determine each other.

All magnitudes are whole multiples of `2 ^ (-1074)`, the least positive one. Arithmetic on them is
done on those multiples, as exact natural numbers: `unitsAt` gives the multiple at a place, and
`placeBelow` is its inverse, rounding down.
-/

namespace Fluxion

/-- A double. There is one not-a-number: its sign and payload are never seen. -/
inductive Binary64 where
  /-- A finite number, zero among them with either sign. There are `2047 * 2 ^ 52` places. -/
  | finite (negative : Bool) (place : Fin 0x7FF0000000000000)
  /-- An infinity. -/
  | infinite (negative : Bool)
  /-- The value that is not a number. -/
  | nan
  deriving DecidableEq

namespace Binary64

/-! ### Magnitudes -/

/-- How many units make one: the least positive magnitude is `2 ^ (-1074)`. -/
def unitsPerOne : Nat := 1 <<< 1074

/-- How often the step between magnitudes has doubled before the place: every `2 ^ 52` places, but
not yet at the first normal magnitude. -/
def doublings (place : Nat) : Nat := place / 0x10000000000000 - 1

/-- The magnitude at a place, in units. -/
def unitsAt (place : Nat) : Nat :=
  (place - doublings place * 0x10000000000000) <<< doublings place

/-- The last place whose magnitude is at most so many units. -/
def placeBelow (units : Nat) : Nat :=
  (units.log2 - 52) * 0x10000000000000 + units >>> (units.log2 - 52)

/-- The place nearest to `num / den` units; halfway between two places, the even one. -/
def nearestPlace (num den : Nat) : Nat :=
  let place := placeBelow (num / den)
  let middle := den * (unitsAt place + unitsAt (place + 1))
  if 2 * num < middle then place
  else if 2 * num = middle then place + place % 2
  else place + 1

/-- Without doublings the place counts units. -/
theorem unitsAt_of_lt {place : Nat} (h : place < 0x20000000000000) : unitsAt place = place := by
  have hd : doublings place = 0 := by unfold doublings; omega
  simp [unitsAt, hd]

/-- Few units are counted by the place. -/
theorem placeBelow_of_lt {units : Nat} (h : units < 0x20000000000000) :
    placeBelow units = units := by
  have hl : units.log2 - 52 = 0 := by
    by_cases h0 : units = 0
    · simp [h0]
    · have : units.log2 < 53 := (Nat.log2_lt h0).mpr h
      omega
  simp [placeBelow, hl]

/-! ### Making numbers -/

/-- The double nearest to `num / den` with the given sign; halfway between two doubles, the one
at the even place. What would take the place after the last is infinite. -/
def nearest (negative : Bool) (num den : Nat) : Binary64 :=
  let place := nearestPlace (num * unitsPerOne) den
  if h : place < 0x7FF0000000000000 then .finite negative ⟨place, h⟩ else .infinite negative

/-- The double nearest to a natural number. -/
def ofNat (n : Nat) : Binary64 := nearest false n 1

/-! ### Asking about numbers -/

/-- Whether a double is a finite number. -/
def isFinite : Binary64 → Bool
  | .finite _ _ => true
  | _ => false

/-- Equality of values: both zeros are one value, and the not-a-number has none to share. -/
def sameValue : Binary64 → Binary64 → Bool
  | .finite s k, .finite t l => k = l && (s = t || k.val = 0)
  | .infinite s, .infinite t => s = t
  | _, _ => false

/-- Whatever has a value shares it with itself. -/
theorem sameValue_self (a : Binary64) : a.sameValue a = true ↔ a ≠ nan := by
  cases a <;> simp [sameValue]

/-! ### Interchange patterns -/

/-- The 64 bits of a number, read as a natural number: the sign bit, and below it the place. The
infinities take the place after the last, and every not-a-number counts as the quiet one. -/
def pattern : Binary64 → Nat
  | .finite negative place => negative.toNat * 0x8000000000000000 + place
  | .infinite negative => negative.toNat * 0x8000000000000000 + 0x7FF0000000000000
  | .nan => 0x7FF8000000000000

/-- The last hexadecimal digits of a number, as many as asked for. -/
def hexDigits : Nat → Nat → List Char
  | 0, _ => []
  | count + 1, n => hexDigits count (n / 16) ++ [Nat.digitChar (n % 16)]

/-- The label of a number: `#` and its sixteen hexadecimal digits, or `#nan`. -/
def label : Binary64 → String
  | .nan => "#nan"
  | value => String.ofList ('#' :: hexDigits 16 value.pattern)

end Binary64

end Fluxion
