import Fluxion.Formula.Basic
import Fluxion.Proofs.Binary64.Real
import Mathlib.Analysis.SpecialFunctions.Log.Base
import Mathlib.Analysis.SpecialFunctions.Pow.Real

/-!
# The meaning of formulas

A formula stands for a function of a real variable: its numbers are read as their exact values, and
the operators and functions as the usual ones. The value `Formula.eval` is a real number everywhere,
so beside it stands the condition `Formula.DefinedAt` that everything in the formula is defined at
a point.

For powers and square roots there is more than one answer to where they are defined, and a `Domain`
gives one. In `Domain.strict` bases and radicands are positive, so that all powers and roots are
differentiable. In `Domain.natural` a base may also be zero, with a positive exponent, or negative,
with a whole one; this is what the rules of differentiation need, which square a cosine or a divisor
of any sign.
-/

namespace Fluxion

/-! ### Values -/

/-- The value of a named constant. -/
noncomputable def Constant.eval : Constant → ℝ
  | .e => Real.exp 1
  | .pi => Real.pi

/-- The value of an operator between two values. -/
noncomputable def Operator.eval : Operator → ℝ → ℝ → ℝ
  | .add, a, b => a + b
  | .sub, a, b => a - b
  | .mul, a, b => a * b
  | .div, a, b => a / b
  | .pow, a, b => a ^ b

/-- The value of a named function at a value. -/
noncomputable def NamedFunction.eval : NamedFunction → ℝ → ℝ
  | .sin, a => Real.sin a
  | .cos, a => Real.cos a
  | .tan, a => Real.tan a
  | .cot, a => Real.cot a
  | .ln, a => Real.log a
  | .lg, a => Real.logb 10 a
  | .sqrt, a => Real.sqrt a

/-- The value of a formula at a point. -/
noncomputable def Formula.eval : Formula → ℝ → ℝ
  | .number v, _ => v.toReal
  | .var, x => x
  | .constant c, _ => c.eval
  | .binary op a b, x => op.eval (a.eval x) (b.eval x)
  | .apply f a, x => f.eval (a.eval x)

/-! ### Where formulas are defined -/

/-- Where powers and square roots are taken to be defined. -/
structure Domain where
  /-- The bases and exponents of powers. -/
  power : ℝ → ℝ → Prop
  /-- The arguments of square roots. -/
  root : ℝ → Prop
  /-- Zero has no powers but those with a positive exponent. -/
  pos_of_power_zero : ∀ {b : ℝ}, power 0 b → 0 < b

/-- Bases and radicands are positive. -/
def Domain.strict : Domain where
  power a _ := 0 < a
  root a := 0 < a
  pos_of_power_zero h := absurd h (lt_irrefl 0)

/-- Bases are positive, or zero with a positive exponent, or negative with a whole exponent; and
radicands are not negative. -/
def Domain.natural : Domain where
  power a b := 0 < a ∨ a = 0 ∧ 0 < b ∨ a < 0 ∧ ∃ n : ℤ, b = n
  root a := 0 ≤ a
  pos_of_power_zero h := by
    rcases h with h | h | h
    · exact absurd h (lt_irrefl 0)
    · exact h.2
    · exact absurd h.1 (lt_irrefl 0)

variable (D : Domain)

/-- Where an operator is defined. -/
def Operator.DefinedAt : Operator → ℝ → ℝ → Prop
  | .add, _, _ | .sub, _, _ | .mul, _, _ => True
  | .div, _, b => b ≠ 0
  | .pow, a, b => D.power a b

/-- Where a named function is defined. -/
def NamedFunction.DefinedAt : NamedFunction → ℝ → Prop
  | .sin, _ | .cos, _ => True
  | .tan, a => Real.cos a ≠ 0
  | .cot, a => Real.sin a ≠ 0
  | .ln, a | .lg, a => 0 < a
  | .sqrt, a => D.root a

/-- Everything in a formula is defined at a point. -/
def Formula.DefinedAt : Formula → ℝ → Prop
  | .number v, _ => v.isFinite = true
  | .var, _ | .constant _, _ => True
  | .binary op a b, x => a.DefinedAt x ∧ b.DefinedAt x ∧ op.DefinedAt D (a.eval x) (b.eval x)
  | .apply f a, x => a.DefinedAt x ∧ f.DefinedAt D (a.eval x)

variable {D}

/-! ### Rules for values -/

namespace Formula

variable (a b : Formula) (x : ℝ)

@[simp] theorem eval_var : Formula.var.eval x = x := rfl

@[simp] theorem eval_add : (a + b).eval x = a.eval x + b.eval x := rfl

@[simp] theorem eval_sub : (a - b).eval x = a.eval x - b.eval x := rfl

@[simp] theorem eval_mul : (a * b).eval x = a.eval x * b.eval x := rfl

@[simp] theorem eval_div : (a / b).eval x = a.eval x / b.eval x := rfl

@[simp] theorem eval_pow : (a ^ b).eval x = a.eval x ^ b.eval x := rfl

@[simp] theorem eval_apply (f : NamedFunction) : (apply f a).eval x = f.eval (a.eval x) := rfl

theorem eval_ofNat {n : Nat} (h : n < 0x20000000000000) : (OfNat.ofNat n : Formula).eval x = n :=
  Binary64.toReal_ofNat h

@[simp] theorem eval_zero : (0 : Formula).eval x = 0 := by
  rw [eval_ofNat x (by decide), Nat.cast_zero]

@[simp] theorem eval_one : (1 : Formula).eval x = 1 := by
  rw [eval_ofNat x (by decide), Nat.cast_one]

@[simp] theorem eval_two : (2 : Formula).eval x = 2 :=
  eval_ofNat x (by decide)

@[simp] theorem eval_ten : (10 : Formula).eval x = 10 :=
  eval_ofNat x (by decide)

@[simp] theorem eval_neg : (-a).eval x = -a.eval x := by
  rw [neg_def, eval_sub, eval_zero, zero_sub]

/-! ### Rules for being defined -/

variable {a b x}

@[simp] theorem definedAt_add : (a + b).DefinedAt D x ↔ a.DefinedAt D x ∧ b.DefinedAt D x :=
  ⟨fun h => ⟨h.1, h.2.1⟩, fun h => ⟨h.1, h.2, trivial⟩⟩

@[simp] theorem definedAt_sub : (a - b).DefinedAt D x ↔ a.DefinedAt D x ∧ b.DefinedAt D x :=
  ⟨fun h => ⟨h.1, h.2.1⟩, fun h => ⟨h.1, h.2, trivial⟩⟩

@[simp] theorem definedAt_mul : (a * b).DefinedAt D x ↔ a.DefinedAt D x ∧ b.DefinedAt D x :=
  ⟨fun h => ⟨h.1, h.2.1⟩, fun h => ⟨h.1, h.2, trivial⟩⟩

@[simp] theorem definedAt_div :
    (a / b).DefinedAt D x ↔ a.DefinedAt D x ∧ b.DefinedAt D x ∧ b.eval x ≠ 0 := Iff.rfl

@[simp] theorem definedAt_pow : (a ^ b).DefinedAt D x ↔
    a.DefinedAt D x ∧ b.DefinedAt D x ∧ D.power (a.eval x) (b.eval x) := Iff.rfl

@[simp] theorem definedAt_apply {f : NamedFunction} :
    (apply f a).DefinedAt D x ↔ a.DefinedAt D x ∧ f.DefinedAt D (a.eval x) := Iff.rfl

theorem definedAt_ofNat {n : Nat} (h : n < 0x20000000000000) :
    (OfNat.ofNat n : Formula).DefinedAt D x := by
  obtain ⟨place, hplace⟩ := Binary64.isUnsigned_ofNat h
  rw [ofNat_def, DefinedAt, hplace]
  rfl

@[simp] theorem definedAt_zero : (0 : Formula).DefinedAt D x := definedAt_ofNat (by decide)

@[simp] theorem definedAt_one : (1 : Formula).DefinedAt D x := definedAt_ofNat (by decide)

@[simp] theorem definedAt_two : (2 : Formula).DefinedAt D x := definedAt_ofNat (by decide)

@[simp] theorem definedAt_ten : (10 : Formula).DefinedAt D x := definedAt_ofNat (by decide)

@[simp] theorem definedAt_neg : (-a).DefinedAt D x ↔ a.DefinedAt D x := by
  rw [neg_def, definedAt_sub, and_iff_right definedAt_zero]

/-- What is defined strictly is defined naturally. -/
theorem DefinedAt.natural (h : a.DefinedAt .strict x) : a.DefinedAt .natural x := by
  induction a with
  | number | var | constant => exact h
  | binary op a b iha ihb =>
    refine ⟨iha h.1, ihb h.2.1, ?_⟩
    cases op with
    | add | sub | mul | div => exact h.2.2
    | pow => exact .inl h.2.2
  | apply f a ih =>
    refine ⟨ih h.1, ?_⟩
    cases f with
    | sqrt => exact h.2.le
    | _ => exact h.2

end Formula

end Fluxion
