import Fluxion.Formula.Derivative
import Mathlib.Order.Monotone.Basic
import Mathlib.Tactic.Linarith
import Mathlib.Tactic.Ring

/-!
# The growth of derivatives

A derivative is never smaller than the formula, and at most three times the square of its size
(`Formula.size_derivative_le`). It is larger exactly if the formula has a node whose rule mentions an
operand beside its derivative: a product, a quotient, a power or a function (`Formula.Grows`). The
derivative has such a node again, so from there on each derivative is larger than the one before;
sums and differences of leaves keep their size at all orders (`Formula.size_growth`).
-/

namespace Fluxion.Formula

variable {a b a' b' : Formula}

/-! ### Sizes of rules -/

/-- How many nodes the rule for an operator adds to the derivatives of operands of these sizes. -/
def operatorCost (a b : Nat) : Operator → Nat
  | .add | .sub => 1
  | .mul => a + b + 3
  | .div => a + 2 * b + 6
  | .pow => 3 * a + 3 * b + 10

/-- How many nodes the rule for a function adds to the derivative of an argument of this size. -/
def chainCost (a : Nat) : NamedFunction → Nat
  | .sin => a + 2
  | .cos | .tan | .lg | .sqrt => a + 4
  | .cot => a + 6
  | .ln => a + 1

theorem size_operatorRule (op : Operator) (a b a' b' : Formula) :
    (operatorRule op a b a' b').size = a'.size + b'.size + operatorCost a.size b.size op := by
  cases op <;>
    simp only [operatorRule, operatorCost, add_def, sub_def, mul_def, div_def, pow_def, ofNat_def,
      size] <;>
    omega

theorem size_chainRule (f : NamedFunction) (a a' : Formula) :
    (chainRule f a a').size = a'.size + chainCost a.size f := by
  cases f <;>
    simp only [chainRule, chainCost, neg_def, sub_def, mul_def, div_def, pow_def, ofNat_def, size] <;>
    omega

/-- The square of the size leaves room for what the rule adds. -/
theorem operatorCost_le {a b : Nat} (ha : 1 ≤ a) (hb : 1 ≤ b) (op : Operator) :
    operatorCost a b op ≤ 6 * (a * b) + 6 * a + 6 * b + 3 := by
  have : 1 ≤ a * b := Nat.mul_pos ha hb
  cases op <;> simp only [operatorCost] <;> omega

theorem chainCost_le {a : Nat} (ha : 1 ≤ a) (f : NamedFunction) : chainCost a f ≤ 6 * a + 3 := by
  cases f <;> simp only [chainCost] <;> omega

theorem one_le_operatorCost (a b : Nat) (op : Operator) : 1 ≤ operatorCost a b op := by
  cases op <;> simp only [operatorCost] <;> omega

/-- Only the rules for sums and differences add no more than the operator itself. -/
theorem one_lt_operatorCost_iff (a b : Nat) (op : Operator) :
    1 < operatorCost a b op ↔ op ≠ .add ∧ op ≠ .sub := by
  cases op <;> simp [operatorCost]

theorem one_lt_chainCost {a : Nat} (ha : 1 ≤ a) (f : NamedFunction) : 1 < chainCost a f := by
  cases f <;> simp only [chainCost] <;> omega

/-! ### One derivative -/

/-- **A derivative has at most three times the square of the size.** -/
theorem size_derivative_le (a : Formula) : a.derivative.size ≤ 3 * a.size ^ 2 := by
  induction a with
  | number | var | constant => exact Nat.le_of_ble_eq_true rfl
  | binary op a b iha ihb =>
    rw [derivative, size_operatorRule, size]
    calc a.derivative.size + b.derivative.size + operatorCost a.size b.size op
      _ ≤ 3 * a.size ^ 2 + 3 * b.size ^ 2 + (6 * (a.size * b.size) + 6 * a.size + 6 * b.size + 3) :=
        Nat.add_le_add (Nat.add_le_add iha ihb) (operatorCost_le a.size_pos b.size_pos op)
      _ = 3 * (1 + a.size + b.size) ^ 2 := by ring
  | apply f a ih =>
    rw [derivative, size_chainRule, size]
    calc a.derivative.size + chainCost a.size f
      _ ≤ 3 * a.size ^ 2 + (6 * a.size + 3) := Nat.add_le_add ih (chainCost_le a.size_pos f)
      _ = 3 * (1 + a.size) ^ 2 := by ring

/-! ### Nodes that grow -/

/-- Whether the rule for the root mentions an operand beside its derivative. -/
def repeatsOperand : Formula → Bool
  | .binary .mul _ _ | .binary .div _ _ | .binary .pow _ _ | .apply _ _ => true
  | .binary .add _ _ | .binary .sub _ _ | .number _ | .var | .constant _ => false

/-- Some node is a product, a quotient, a power or a function. -/
def Grows (a : Formula) : Prop := ∃ b ∈ a.postorder, b.repeatsOperand = true

instance (a : Formula) : Decidable a.Grows :=
  inferInstanceAs (Decidable (∃ b ∈ a.postorder, b.repeatsOperand = true))

@[simp] theorem not_grows_number (v : Binary64) : ¬ (number v).Grows := by
  simp [Grows, repeatsOperand, postorder]

@[simp] theorem not_grows_var : ¬ var.Grows := by
  simp [Grows, repeatsOperand, postorder]

@[simp] theorem not_grows_constant (c : Constant) : ¬ (constant c).Grows := by
  simp [Grows, repeatsOperand, postorder]

@[simp] theorem grows_binary (op : Operator) :
    (binary op a b).Grows ↔ a.Grows ∨ b.Grows ∨ op ≠ .add ∧ op ≠ .sub := by
  cases op <;> simp [Grows, repeatsOperand, postorder, or_and_right, exists_or]

@[simp] theorem grows_apply (f : NamedFunction) (a : Formula) : (apply f a).Grows :=
  ⟨apply f a, by simp [postorder], rfl⟩

theorem grows_operatorRule (op : Operator) (ha : a'.Grows ↔ a.Grows) (hb : b'.Grows ↔ b.Grows) :
    (operatorRule op a b a' b').Grows ↔ (binary op a b).Grows := by
  cases op <;> simp [operatorRule, add_def, sub_def, mul_def, div_def, pow_def, ha, hb]

theorem grows_chainRule (f : NamedFunction) (a a' : Formula) : (chainRule f a a').Grows := by
  cases f <;> simp [chainRule, neg_def, sub_def, mul_def, div_def, pow_def]

/-- A rule brings a node that grows if there was one, and only then. -/
theorem grows_derivative (a : Formula) : a.derivative.Grows ↔ a.Grows := by
  induction a with
  | number | constant => exact iff_of_false (not_grows_number _) (by simp)
  | var => exact iff_of_false (not_grows_number _) not_grows_var
  | binary op a b iha ihb => exact grows_operatorRule op iha ihb
  | apply f a => exact iff_of_true (grows_chainRule f a _) (grows_apply f a)

theorem grows_nthDerivative (a : Formula) (n : Nat) : (a.nthDerivative n).Grows ↔ a.Grows := by
  induction n generalizing a with
  | zero => rfl
  | succ n ih => exact (ih a.derivative).trans a.grows_derivative

/-- A derivative is not smaller than the formula, and larger if a node grows. -/
theorem size_derivative (a : Formula) :
    a.size ≤ a.derivative.size ∧ (a.size < a.derivative.size ↔ a.Grows) := by
  induction a with
  | number | var | constant => simp [derivative, size, ofNat_def]
  | binary op a b iha ihb =>
    have hcost := one_le_operatorCost a.size b.size op
    rw [derivative, size_operatorRule, size, grows_binary, ← iha.2, ← ihb.2,
      ← one_lt_operatorCost_iff a.size b.size op]
    have := iha.1
    have := ihb.1
    omega
  | apply f a ih =>
    have hcost := one_lt_chainCost a.size_pos f
    rw [derivative, size_chainRule, size]
    exact ⟨by omega, iff_of_true (by omega) (grows_apply f a)⟩

/-! ### All derivatives -/

/-- **How derivatives grow**: one derivative is not smaller, at most three times the square of the size,
and larger exactly if a node grows; then the sizes of all derivatives are strictly increasing, and
otherwise they are all the same. -/
theorem size_growth (a : Formula) :
    a.size ≤ a.derivative.size ∧ a.derivative.size ≤ 3 * a.size ^ 2 ∧
      (a.size < a.derivative.size ↔ a.Grows) ∧
      (a.Grows → StrictMono fun n => (a.nthDerivative n).size) ∧
      (¬ a.Grows → ∀ n, (a.nthDerivative n).size = a.size) := by
  have hstep (n : Nat) : (a.nthDerivative n).size ≤ (a.nthDerivative (n + 1)).size ∧
      ((a.nthDerivative n).size < (a.nthDerivative (n + 1)).size ↔ a.Grows) := by
    rw [nthDerivative_succ, ← a.grows_nthDerivative n]
    exact (a.nthDerivative n).size_derivative
  refine ⟨a.size_derivative.1, a.size_derivative_le, a.size_derivative.2, fun h => ?_, fun h n => ?_⟩
  · exact strictMono_nat_of_lt_succ fun n => (hstep n).2.mpr h
  · induction n with
    | zero => rfl
    | succ n ih =>
      rw [← ih]
      exact Nat.le_antisymm (Nat.not_lt.mp (mt (hstep n).2.mp h)) (hstep n).1

/-- A product grows, however it is surrounded; a difference of leaves does not. -/
theorem size_growth_product :
    let a : Formula := var * var - 5
    let b : Formula := var - 5
    a.Grows ∧ StrictMono (fun n => (a.nthDerivative n).size) ∧
      ¬ b.Grows ∧ ∀ n, (b.nthDerivative n).size = 3 := by
  intro a b
  have ha : a.Grows := by decide
  have hb : ¬ b.Grows := by decide
  exact ⟨ha, (size_growth a).2.2.2.1 ha, hb, (size_growth b).2.2.2.2 hb⟩

end Fluxion.Formula
