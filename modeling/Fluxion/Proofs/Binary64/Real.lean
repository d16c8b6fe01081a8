import Fluxion.Proofs.Binary64.Whole
import Mathlib.Data.Real.Basic

/-!
# The value of a number

A finite number stands for a real number: its magnitude in units over the units that make one, with
its sign. Whole numbers of at most 53 bits are kept exactly (`toReal_ofNat`).
-/

namespace Fluxion.Binary64

/-- The real number that a finite number stands for. -/
noncomputable def toReal : Binary64 → ℝ
  | .finite negative place => (if negative then -1 else 1) * (unitsAt place / unitsPerOne)
  | .infinite _ | .nan => 0

theorem cast_unitsPerOne_pos : (0 : ℝ) < unitsPerOne := Nat.cast_pos.mpr unitsPerOne_pos

theorem toReal_ofNat {n : Nat} (h : n < 0x20000000000000) : (ofNat n).toReal = n := by
  obtain ⟨place, hplace, hunits⟩ := unitsAt_ofNat h
  rw [hplace, toReal, hunits, Nat.cast_mul, mul_div_cancel_right₀ _ cast_unitsPerOne_pos.ne',
    if_neg Bool.false_ne_true, one_mul]

/-- Both zeros stand for zero. -/
theorem toReal_eq_of_sameValue {v w : Binary64} (h : v.sameValue w = true) :
    v.toReal = w.toReal := by
  cases v with
  | finite s k =>
    cases w with
    | finite t l =>
      simp only [sameValue, Bool.and_eq_true, Bool.or_eq_true, decide_eq_true_eq] at h
      obtain ⟨rfl, rfl | hzero⟩ := h
      · rfl
      · have hunits : unitsAt k = 0 := by rw [hzero, unitsAt_of_lt (by decide)]
        simp [toReal, hunits]
    | infinite | nan => exact absurd h Bool.false_ne_true
  | infinite | nan =>
    cases w with
    | infinite | nan => rfl
    | finite => exact absurd h Bool.false_ne_true

end Fluxion.Binary64
