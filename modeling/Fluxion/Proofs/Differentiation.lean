import Fluxion.Formula.Derivative
import Fluxion.Proofs.Meaning
import Mathlib

/-!
# The rules of differentiation

The derivative of a formula stands for the derivative of the function that the formula stands for
(`Formula.hasDerivAt_derivative`), at each point where everything in the formula is defined strictly:
bases and radicands are positive there. The formula is then defined around the point too, and its
derivative is defined at it, though not strictly, since the rules square cosines, sines and divisors
of any sign.

For each operator and each function three things are shown: the rule's value is the derivative, the
rule is defined, and the condition on the operands is kept nearby.
-/

namespace Fluxion

open Filter Topology

variable {a b a' b' : Formula} {x : ℝ}

/-! ### Squares -/

namespace Formula

theorem eval_square : (a ^ (2 : Formula)).eval x = a.eval x ^ 2 := by
  rw [eval_pow, eval_two, Real.rpow_two]

theorem definedAt_square (h : a.DefinedAt .natural x) :
    (a ^ (2 : Formula)).DefinedAt .natural x := by
  refine ⟨h, definedAt_two, ?_⟩
  change Domain.natural.power _ ((2 : Formula).eval x)
  rw [eval_two]
  rcases lt_trichotomy (a.eval x) 0 with hneg | hzero | hpos
  · exact .inr (.inr ⟨hneg, 2, by norm_num⟩)
  · exact .inr (.inl ⟨hzero, two_pos⟩)
  · exact .inl hpos

/-- A quotient by a square. -/
theorem definedAt_div_square (h : b.DefinedAt .natural x) (ha : a.DefinedAt .natural x)
    (hne : b.eval x ≠ 0) : (a / b ^ (2 : Formula)).DefinedAt .natural x := by
  refine ⟨ha, definedAt_square h, ?_⟩
  change (b ^ (2 : Formula)).eval x ≠ 0
  rw [eval_square]
  exact pow_ne_zero 2 hne

end Formula

open Formula

/-! ### Operators -/

/-- The rule for an operator gives the derivative. -/
theorem Operator.hasDerivAt (op : Operator) (ha : HasDerivAt a.eval (a'.eval x) x)
    (hb : HasDerivAt b.eval (b'.eval x) x)
    (h : op.DefinedAt .strict (a.eval x) (b.eval x)) :
    HasDerivAt (binary op a b).eval ((operatorRule op a b a' b').eval x) x := by
  cases op with
  | add => exact ha.add hb
  | sub => exact ha.sub hb
  | mul => exact ha.mul hb
  | div =>
    refine (ha.div hb h).congr_deriv ?_
    simp only [operatorRule, eval_div, eval_sub, eval_mul, eval_square]
  | pow =>
    refine (ha.rpow hb h).congr_deriv ?_
    simp only [operatorRule, eval_add, eval_sub, eval_mul, eval_pow, eval_one, eval_apply,
      NamedFunction.eval]
    ring

/-- The rule for an operator is defined. -/
theorem Operator.definedAt_operatorRule (op : Operator) (ha : a.DefinedAt .natural x)
    (hb : b.DefinedAt .natural x) (ha' : a'.DefinedAt .natural x) (hb' : b'.DefinedAt .natural x)
    (h : op.DefinedAt .strict (a.eval x) (b.eval x)) :
    (operatorRule op a b a' b').DefinedAt .natural x := by
  have hsecond : (a' * b).DefinedAt .natural x := definedAt_mul.mpr ⟨ha', hb⟩
  have hfirst : (a * b').DefinedAt .natural x := definedAt_mul.mpr ⟨ha, hb'⟩
  cases op with
  | add => exact definedAt_add.mpr ⟨ha', hb'⟩
  | sub => exact definedAt_sub.mpr ⟨ha', hb'⟩
  | mul => exact definedAt_add.mpr ⟨hsecond, hfirst⟩
  | div => exact definedAt_div_square hb (definedAt_sub.mpr ⟨hsecond, hfirst⟩) h
  | pow =>
    have hpow {c : Formula} (hc : c.DefinedAt .natural x) : (a ^ c).DefinedAt .natural x :=
      definedAt_pow.mpr ⟨ha, hc, .inl h⟩
    have hlog : (apply .ln a).DefinedAt .natural x := definedAt_apply.mpr ⟨ha, h⟩
    have hless : (b - 1).DefinedAt .natural x := definedAt_sub.mpr ⟨hb, definedAt_one⟩
    exact definedAt_add.mpr
      ⟨definedAt_mul.mpr ⟨definedAt_mul.mpr ⟨hpow hless, hb⟩, ha'⟩,
        definedAt_mul.mpr ⟨definedAt_mul.mpr ⟨hb', hlog⟩, hpow hb⟩⟩

/-- The condition of an operator is kept nearby. -/
theorem Operator.eventually_definedAt (op : Operator) (ha : ContinuousAt a.eval x)
    (hb : ContinuousAt b.eval x) (h : op.DefinedAt .strict (a.eval x) (b.eval x)) :
    ∀ᶠ y in 𝓝 x, op.DefinedAt .strict (a.eval y) (b.eval y) := by
  cases op with
  | add | sub | mul => exact .of_forall fun _ => trivial
  | div => exact hb.eventually_ne h
  | pow => exact continuousAt_const.eventually_lt ha h

/-! ### Functions -/

/-- The chain rule for a function gives the derivative. -/
theorem NamedFunction.hasDerivAt (f : NamedFunction) (ha : HasDerivAt a.eval (a'.eval x) x)
    (h : f.DefinedAt .strict (a.eval x)) :
    HasDerivAt (apply f a).eval ((chainRule f a a').eval x) x := by
  cases f with
  | sin => exact ha.sin
  | cos =>
    refine ha.cos.congr_deriv ?_
    rw [chainRule, eval_neg, neg_mul]
    rfl
  | tan =>
    refine ((Real.hasDerivAt_tan h).comp x ha).congr_deriv ?_
    rw [chainRule, eval_div, eval_square, one_div_mul_eq_div]
    rfl
  | cot =>
    have hcot : (apply .cot a).eval = fun y => Real.cos (a.eval y) / Real.sin (a.eval y) :=
      funext fun y => Real.cot_eq_cos_div_sin _
    rw [hcot]
    refine (ha.cos.div ha.sin h).congr_deriv ?_
    simp only [chainRule, eval_neg, eval_div, eval_square, eval_apply, NamedFunction.eval]
    rw [← neg_div]
    congr 1
    linear_combination (-a'.eval x) * Real.sin_sq_add_cos_sq (a.eval x)
  | ln => exact ha.log h.ne'
  | lg =>
    refine ((ha.log h.ne').div_const (Real.log 10)).congr_deriv ?_
    simp only [chainRule, eval_div, eval_mul, eval_apply, eval_ten, NamedFunction.eval, div_div]
  | sqrt =>
    refine (ha.sqrt h.ne').congr_deriv ?_
    simp only [chainRule, eval_div, eval_mul, eval_apply, eval_two, NamedFunction.eval]

/-- The chain rule for a function is defined. -/
theorem NamedFunction.definedAt_chainRule (f : NamedFunction) (ha : a.DefinedAt .natural x)
    (ha' : a'.DefinedAt .natural x) (h : f.DefinedAt .strict (a.eval x)) :
    (chainRule f a a').DefinedAt .natural x := by
  have hsin : (apply .sin a).DefinedAt .natural x := definedAt_apply.mpr ⟨ha, trivial⟩
  have hcos : (apply .cos a).DefinedAt .natural x := definedAt_apply.mpr ⟨ha, trivial⟩
  cases f with
  | sin => exact definedAt_mul.mpr ⟨hcos, ha'⟩
  | cos => exact definedAt_neg.mpr (definedAt_mul.mpr ⟨hsin, ha'⟩)
  | tan => exact definedAt_div_square hcos ha' h
  | cot => exact definedAt_neg.mpr (definedAt_div_square hsin ha' h)
  | ln => exact definedAt_div.mpr ⟨ha', ha, h.ne'⟩
  | lg =>
    have hten : (apply .ln 10).DefinedAt .natural x := by
      refine definedAt_apply.mpr ⟨definedAt_ten, ?_⟩
      rw [eval_ten]
      exact show (0 : ℝ) < 10 by norm_num
    refine definedAt_div.mpr ⟨ha', definedAt_mul.mpr ⟨ha, hten⟩, ?_⟩
    have hlog : Real.log 10 ≠ 0 := (Real.log_pos (by norm_num)).ne'
    rw [eval_mul, eval_apply, eval_ten]
    exact mul_ne_zero h.ne' hlog
  | sqrt =>
    have hroot : (apply .sqrt a).DefinedAt .natural x := definedAt_apply.mpr ⟨ha, h.le⟩
    refine definedAt_div.mpr ⟨ha', definedAt_mul.mpr ⟨definedAt_two, hroot⟩, ?_⟩
    rw [eval_mul, eval_two]
    exact mul_ne_zero two_ne_zero (Real.sqrt_pos.mpr h).ne'

/-- The condition of a function is kept nearby. -/
theorem NamedFunction.eventually_definedAt (f : NamedFunction) (ha : ContinuousAt a.eval x)
    (h : f.DefinedAt .strict (a.eval x)) : ∀ᶠ y in 𝓝 x, f.DefinedAt .strict (a.eval y) := by
  cases f with
  | sin | cos => exact .of_forall fun _ => trivial
  | tan => exact (Real.continuous_cos.continuousAt.comp ha).eventually_ne h
  | cot => exact (Real.continuous_sin.continuousAt.comp ha).eventually_ne h
  | ln | lg | sqrt => exact continuousAt_const.eventually_lt ha h

/-! ### Formulas -/

namespace Formula

theorem definedAt_derivative (h : a.DefinedAt .strict x) : a.derivative.DefinedAt .natural x := by
  induction a with
  | number | constant => exact definedAt_zero
  | var => exact definedAt_one
  | binary op a b iha ihb =>
    exact op.definedAt_operatorRule h.1.natural h.2.1.natural (iha h.1) (ihb h.2.1) h.2.2
  | apply f a ih => exact f.definedAt_chainRule h.1.natural (ih h.1) h.2

theorem hasDerivAt_eval (h : a.DefinedAt .strict x) :
    HasDerivAt a.eval (a.derivative.eval x) x := by
  induction a with
  | number v =>
    rw [derivative, eval_zero]
    exact hasDerivAt_const x v.toReal
  | constant c =>
    rw [derivative, eval_zero]
    exact hasDerivAt_const x c.eval
  | var =>
    rw [derivative, eval_one]
    exact hasDerivAt_id x
  | binary op a b iha ihb => exact op.hasDerivAt (iha h.1) (ihb h.2.1) h.2.2
  | apply f a ih => exact f.hasDerivAt (ih h.1) h.2

theorem eventually_definedAt (h : a.DefinedAt .strict x) : ∀ᶠ y in 𝓝 x, a.DefinedAt .strict y := by
  induction a with
  | number | var | constant => exact .of_forall fun _ => h
  | binary op a b iha ihb =>
    have hop := op.eventually_definedAt (hasDerivAt_eval h.1).continuousAt
      (hasDerivAt_eval h.2.1).continuousAt h.2.2
    exact (iha h.1).and ((ihb h.2.1).and hop)
  | apply f a ih =>
    exact (ih h.1).and (f.eventually_definedAt (hasDerivAt_eval h.1).continuousAt h.2)

/-- **The derivative of a formula is the derivative of its function**, wherever all that the formula
holds is defined and differentiable: the formula is defined around the point, and its derivative is
defined at it and has the value of the derivative there. -/
theorem hasDerivAt_derivative (h : a.DefinedAt .strict x) :
    (∀ᶠ y in 𝓝 x, a.DefinedAt .strict y) ∧ a.derivative.DefinedAt .natural x ∧
      HasDerivAt a.eval (a.derivative.eval x) x :=
  ⟨eventually_definedAt h, definedAt_derivative h, hasDerivAt_eval h⟩

theorem hasDerivAt_derivative_power :
    let a : Formula := .var ^ (.var : Formula)
    a.DefinedAt .strict 2 ∧ (∀ᶠ y in 𝓝 2, a.DefinedAt .strict y) ∧
      a.derivative.DefinedAt .natural 2 ∧ HasDerivAt a.eval (a.derivative.eval 2) 2 := by
  have hdefined : (.var ^ (.var : Formula) : Formula).DefinedAt .strict 2 :=
    ⟨trivial, trivial, two_pos⟩
  exact ⟨hdefined, hasDerivAt_derivative hdefined⟩

end Formula

end Fluxion
