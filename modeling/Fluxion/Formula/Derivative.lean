import Fluxion.Formula.Basic

/-!
# Derivatives

The derivative of a formula with respect to `x`, by one rule for each kind of node. Nothing is
simplified here: zeros and ones that the rules bring in stay in the tree, and only printing leaves
them out.
-/

namespace Fluxion.Formula

/-- The derivative of a named function at an argument, given the argument's own derivative. -/
def chainRule (f : NamedFunction) (a a' : Formula) : Formula :=
  match f with
  | .sin => .apply .cos a * a'
  | .cos => -(.apply .sin a * a')
  | .tan => a' / .apply .cos a ^ (2 : Formula)
  | .cot => -(a' / .apply .sin a ^ (2 : Formula))
  | .ln => a' / a
  | .lg => a' / (a * .apply .ln 10)
  | .sqrt => a' / (2 * .apply .sqrt a)

/-- The derivative of an operator between two operands, given the operands' own derivatives. The
rule for powers is the general one, also where the exponent is a number. -/
def operatorRule (op : Operator) (a b a' b' : Formula) : Formula :=
  match op with
  | .add => a' + b'
  | .sub => a' - b'
  | .mul => a' * b + a * b'
  | .div => (a' * b - a * b') / b ^ (2 : Formula)
  | .pow => a ^ (b - 1) * b * a' + b' * .apply .ln a * a ^ b

/-- The derivative of a formula with respect to the variable. -/
def derivative : Formula → Formula
  | .number _ | .constant _ => 0
  | .var => 1
  | .binary op a b => operatorRule op a b a.derivative b.derivative
  | .apply f a => chainRule f a a.derivative

/-- The derivative of some order. -/
def nthDerivative (a : Formula) : Nat → Formula
  | 0 => a
  | n + 1 => a.derivative.nthDerivative n

/-- One more order is one more derivative of the last. -/
theorem nthDerivative_succ (a : Formula) (n : Nat) :
    a.nthDerivative (n + 1) = (a.nthDerivative n).derivative := by
  induction n generalizing a with
  | zero => rfl
  | succ n ih => exact ih a.derivative

end Fluxion.Formula
