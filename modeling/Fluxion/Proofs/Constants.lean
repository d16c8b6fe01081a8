import Fluxion.Formula.Derivative
import Fluxion.Formula.Printed

/-!
# Formulas without the variable

The derivative of a formula in which the variable does not occur is not the number zero, but a whole
tree of quotients, powers and logarithms of its operands, and higher derivatives only grow. Still
each of them prints as a plain zero (`Formula.IsConstant.text_nthDerivative`). The rules bring in no
variable, and each rule puts the derivative of an operand where the printer takes a zero for the
whole: as a factor of a product, as the numerator of a quotient, or on both sides of a sum or a
difference. Nothing is asked of the numbers in the formula, which may also be infinite or none.
-/

namespace Fluxion

/-! ### Printing zeros -/

namespace Printed

variable {a b : Printed}

theorem isZero_add (ha : a.isZero = true) (hb : b.isZero = true) : (add a b).isZero = true := by
  rw [add, if_pos ha]
  exact hb

theorem isZero_sub (ha : a.isZero = true) (hb : b.isZero = true) : (sub a b).isZero = true := by
  rw [sub, if_pos ha, if_pos hb]
  exact hb

theorem isZero_mul_left (ha : a.isZero = true) : (mul a b).isZero = true := by
  rw [mul, ha, Bool.true_or, if_pos rfl]
  rfl

theorem isZero_mul_right (hb : b.isZero = true) : (mul a b).isZero = true := by
  rw [mul, hb, Bool.or_true, if_pos rfl]
  rfl

theorem isZero_div (ha : a.isZero = true) : (div a b).isZero = true := by
  rw [div, ha, Bool.true_or, if_pos rfl]
  exact ha

end Printed

namespace Formula

variable {a b a' b' : Formula}

theorem isZero_neg (h : a.printed.isZero = true) : (-a).printed.isZero = true :=
  Printed.isZero_sub isZero_zero h

/-- Where the derivatives of both operands print as zero, so does what the rule makes of them. -/
theorem isZero_operatorRule (op : Operator) (a b : Formula) (ha : a'.printed.isZero = true)
    (hb : b'.printed.isZero = true) : (operatorRule op a b a' b').printed.isZero = true := by
  cases op with
  | add => exact Printed.isZero_add ha hb
  | sub => exact Printed.isZero_sub ha hb
  | mul => exact Printed.isZero_add (Printed.isZero_mul_left ha) (Printed.isZero_mul_right hb)
  | div =>
    exact Printed.isZero_div
      (Printed.isZero_sub (Printed.isZero_mul_left ha) (Printed.isZero_mul_right hb))
  | pow =>
    -- the derivative of the base is the last factor, that of the exponent the first
    have hbase : (a ^ (b - 1) * b * a').printed.isZero = true := Printed.isZero_mul_right ha
    have hexponent : (b' * apply .ln a).printed.isZero = true := Printed.isZero_mul_left hb
    exact Printed.isZero_add hbase (Printed.isZero_mul_left hexponent)

theorem isZero_chainRule (f : NamedFunction) (a : Formula) (h : a'.printed.isZero = true) :
    (chainRule f a a').printed.isZero = true := by
  cases f with
  | sin => exact Printed.isZero_mul_right h
  | cos => exact isZero_neg (Printed.isZero_mul_right h)
  | cot => exact isZero_neg (Printed.isZero_div h)
  | tan | ln | lg | sqrt => exact Printed.isZero_div h

/-! ### No variable -/

/-- The variable does not occur in a formula. -/
def IsConstant (a : Formula) : Prop := var ∉ a.postorder

instance (a : Formula) : Decidable a.IsConstant := inferInstanceAs (Decidable (var ∉ a.postorder))

@[simp] theorem isConstant_number (v : Binary64) : (number v).IsConstant := by
  simp [IsConstant, postorder]

@[simp] theorem isConstant_constant (c : Constant) : (constant c).IsConstant := by
  simp [IsConstant, postorder]

@[simp] theorem not_isConstant_var : ¬ var.IsConstant := by
  simp [IsConstant, postorder]

@[simp] theorem isConstant_binary (op : Operator) :
    (binary op a b).IsConstant ↔ a.IsConstant ∧ b.IsConstant := by
  simp [IsConstant, postorder]

@[simp] theorem isConstant_apply (f : NamedFunction) : (apply f a).IsConstant ↔ a.IsConstant := by
  simp [IsConstant, postorder]

/-- The rules bring in numbers, but no variable. -/
theorem IsConstant.operatorRule (op : Operator) (ha : a.IsConstant) (hb : b.IsConstant)
    (ha' : a'.IsConstant) (hb' : b'.IsConstant) : (operatorRule op a b a' b').IsConstant := by
  cases op <;>
    simp [Formula.operatorRule, add_def, sub_def, mul_def, div_def, pow_def, ofNat_def, ha, hb, ha',
      hb']

theorem IsConstant.chainRule (f : NamedFunction) (ha : a.IsConstant) (ha' : a'.IsConstant) :
    (chainRule f a a').IsConstant := by
  cases f <;>
    simp [Formula.chainRule, neg_def, sub_def, mul_def, div_def, pow_def, ofNat_def, ha, ha']

/-! ### Derivatives -/

theorem IsConstant.derivative (h : a.IsConstant) : a.derivative.IsConstant := by
  induction a with
  | number | constant => exact isConstant_number _
  | var => exact absurd h not_isConstant_var
  | binary op a b iha ihb =>
    obtain ⟨ha, hb⟩ := (isConstant_binary op).mp h
    exact ha.operatorRule op hb (iha ha) (ihb hb)
  | apply f a ih =>
    have ha := (isConstant_apply f).mp h
    exact ha.chainRule f (ih ha)

theorem IsConstant.isZero_derivative (h : a.IsConstant) : a.derivative.printed.isZero = true := by
  induction a with
  | number | constant => exact isZero_zero
  | var => exact absurd h not_isConstant_var
  | binary op a b iha ihb =>
    obtain ⟨ha, hb⟩ := (isConstant_binary op).mp h
    exact isZero_operatorRule op a b (iha ha) (ihb hb)
  | apply f a ih => exact isZero_chainRule f a (ih ((isConstant_apply f).mp h))

theorem IsConstant.nthDerivative (h : a.IsConstant) (n : Nat) : (a.nthDerivative n).IsConstant := by
  induction n generalizing a with
  | zero => exact h
  | succ n ih => exact ih h.derivative

theorem text_eq_of_isZero (h : a.printed.isZero = true) : a.text = "0" := by
  rw [text, Printed.toList, a.printed.isZero_iff.mp h]
  rfl

/-- **The derivatives of a constant formula print as zero**, of whatever order, and are constant
themselves. -/
theorem IsConstant.text_nthDerivative (h : a.IsConstant) {n : Nat} (hn : 1 ≤ n) :
    (a.nthDerivative n).IsConstant ∧ (a.nthDerivative n).text = "0" := by
  obtain ⟨m, rfl⟩ : ∃ m, n = m + 1 := ⟨n - 1, by omega⟩
  refine ⟨h.nthDerivative (m + 1), text_eq_of_isZero ?_⟩
  rw [nthDerivative_succ]
  exact (h.nthDerivative m).isZero_derivative

/-- No number, a negative base and a cotangent in the exponent. -/
theorem IsConstant.text_nthDerivative_power :
    let a : Formula := (-constant .pi) ^ (apply .cot 0 / number .nan)
    a.IsConstant ∧ (a.nthDerivative 2).IsConstant ∧ (a.nthDerivative 2).text = "0" := by
  intro a
  have h : a.IsConstant := by decide
  exact ⟨h, h.text_nthDerivative (by decide)⟩

end Formula

end Fluxion
