import Fluxion.Binary64.Basic
import Fluxion.Vocabulary

/-!
# Formulas

A formula in the one variable `x` is a tree of numbers, the variable, named constants, operators
between two formulas, and named functions of one. Negation is no node of its own: it is a difference
from zero.

Equality here is that of the trees. The coarser one that compares numbers by their values stands with
the printing ranks, which it compares too.
-/

namespace Fluxion

/-- A formula in one variable. -/
inductive Formula where
  /-- A number. -/
  | number (value : Binary64)
  /-- The variable `x`. -/
  | var
  /-- A named constant. -/
  | constant (c : Constant)
  /-- An operator between two formulas. -/
  | binary (op : Operator) (left right : Formula)
  /-- A named function of a formula. -/
  | apply (f : NamedFunction) (argument : Formula)
  deriving DecidableEq

namespace Formula

/-! ### Building -/

instance (n : Nat) : OfNat Formula n := ⟨.number (.ofNat n)⟩

instance : Add Formula := ⟨.binary .add⟩

instance : Sub Formula := ⟨.binary .sub⟩

instance : Mul Formula := ⟨.binary .mul⟩

instance : Div Formula := ⟨.binary .div⟩

instance : Pow Formula Formula := ⟨.binary .pow⟩

/-- The negation of a formula is its difference from zero. -/
instance : Neg Formula := ⟨fun a => 0 - a⟩

theorem ofNat_def (n : Nat) : (OfNat.ofNat n : Formula) = .number (.ofNat n) := rfl

theorem add_def (a b : Formula) : a + b = .binary .add a b := rfl

theorem sub_def (a b : Formula) : a - b = .binary .sub a b := rfl

theorem mul_def (a b : Formula) : a * b = .binary .mul a b := rfl

theorem div_def (a b : Formula) : a / b = .binary .div a b := rfl

theorem pow_def (a b : Formula) : a ^ b = .binary .pow a b := rfl

theorem neg_def (a : Formula) : -a = 0 - a := rfl

/-! ### Taking apart -/

/-- How many nodes a formula has. -/
def size : Formula → Nat
  | .number _ | .var | .constant _ => 1
  | .binary _ a b => 1 + a.size + b.size
  | .apply _ a => 1 + a.size

theorem size_pos (a : Formula) : 0 < a.size := by
  cases a <;> simp only [size] <;> omega

/-- The operands of the root, from left to right. -/
def children : Formula → List Formula
  | .number _ | .var | .constant _ => []
  | .binary _ a b => [a, b]
  | .apply _ a => [a]

/-- All subformulas, each after its own: left operand, right operand, node. -/
def postorder : Formula → List Formula
  | .binary op a b => a.postorder ++ b.postorder ++ [.binary op a b]
  | .apply f a => a.postorder ++ [.apply f a]
  | a => [a]

theorem length_postorder (a : Formula) : a.postorder.length = a.size := by
  induction a with
  | number | var | constant => rfl
  | binary op a b iha ihb =>
    simp only [postorder, List.length_append, List.length_singleton, iha, ihb, size]
    omega
  | apply f a ih =>
    simp only [postorder, List.length_append, List.length_singleton, ih, size]
    omega

/-- The label of the root: a number's pattern, or the name of what stands there. -/
def label : Formula → String
  | .number value => value.label
  | .var => "x"
  | .constant c => c.name
  | .binary op _ _ => op.name
  | .apply f _ => f.name

end Formula

end Fluxion
