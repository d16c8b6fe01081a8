import Fluxion.Formula.Derivative
import Fluxion.Formula.Printed
import Fluxion.Formula.Reading

/-!
# Derivations

From text to text: a formula is read, differentiated and printed. Repeated derivation reads each
printed derivative again, so each step starts from the simplified text and not from the tree of the
step before. How many steps may be asked for is limited, as each can multiply the size of the result.

The list of the steps gets room for all of them before the first is made. A limit can be set so high
that it admits more steps than any list has room for, and such an order breaks the computation off. How
much memory there is below that bound is not modelled: a list that can exist is taken to fit.
-/

namespace Fluxion

/-- A formula that was differentiated. -/
structure Derivation where
  /-- The text as it was given. -/
  input : String
  /-- The formula read from it, printed. -/
  function : String
  /-- Its derivative, printed. -/
  derivative : String
  deriving DecidableEq

/-- The bounds on what is computed. -/
structure Limits where
  /-- The highest order of derivatives. -/
  maxOrder : Nat := 8
  deriving DecidableEq

namespace Derivation

/-- The derivation of a formula that was read from a text. -/
def ofFormula (input : String) (formula : Formula) : Derivation :=
  { input, function := formula.text, derivative := formula.derivative.text }

/-- The derivation of the formula that a text spells. -/
def ofText (input : String) : Except ReadError Derivation :=
  (Formula.ofText input).map (ofFormula input)

/-- So many derivations in a row, each of the derivative printed by the one before. -/
def chain (input : String) : Nat → Except ReadError (List Derivation)
  | 0 => .ok []
  | n + 1 => do
    let step ← ofText input
    let steps ← chain step.derivative n
    return step :: steps

/-- The bytes that a derivation takes in a list: for each of its three texts an address, a length and a
capacity, of eight bytes each. -/
def width : Nat := 3 * (3 * 8)

/-- The most derivations that a list can have room for: no list takes `2 ^ 63` bytes. -/
def maxRoom : Nat := 0x7FFFFFFFFFFFFFFF / width

/-- As many derivations in a row as the order says, unless it is over the limit. The room for them is
taken before the text is read. -/
def repeated (limits : Limits) (input : String) (order : Nat) :
    Except Panic (Except DeriveError (List Derivation)) :=
  if limits.maxOrder < order then
    .ok (.error (.orderTooHigh order limits.maxOrder))
  else if maxRoom < order then
    .error .capacityOverflow
  else
    .ok ((chain input order).mapError .read)

/-- A chain is a derivation, and then a chain from the derivative it printed. -/
theorem chain_succ (input : String) (n : Nat) :
    chain input (n + 1) =
      (ofText input).bind fun step => (chain step.derivative n).map (step :: ·) := rfl

end Derivation

end Fluxion
