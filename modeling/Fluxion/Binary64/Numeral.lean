import Fluxion.Binary64.Basic
import Fluxion.Decimal

/-!
# Reading numerals

A numeral is an optional sign and then either a decimal or one of the words for an infinity and for
no number, in letters of any case. Its value is the double nearest to the decimal it spells.
-/

namespace Fluxion

/-- The double of the given sign nearest to a decimal. -/
def Decimal.toBinary64 (negative : Bool) (d : Decimal) : Binary64 :=
  match d.boundedExponent with
  | .ofNat e => .nearest negative (d.coefficient * tenTo e) 1
  | .negSucc e => .nearest negative d.coefficient (tenTo (e + 1))

namespace Binary64

/-- The number that a list of characters spells, if it is a numeral. -/
def ofList? (text : List Char) : Option Binary64 :=
  let (negative, body) := Decimal.splitSign text
  let word := body.map Char.toLower
  if word = ['i', 'n', 'f'] ∨ word = ['i', 'n', 'f', 'i', 'n', 'i', 't', 'y'] then
    some (.infinite negative)
  else if word = ['n', 'a', 'n'] then
    some .nan
  else
    (Decimal.ofList? body).map (Decimal.toBinary64 negative)

/-- The number that a text spells, if it is a numeral. -/
def ofText? (text : String) : Option Binary64 := ofList? text.toList

end Binary64

end Fluxion
