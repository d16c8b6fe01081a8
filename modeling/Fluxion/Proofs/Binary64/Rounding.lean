import Fluxion.Proofs.Binary64.Real
import Fluxion.Proofs.Binary64.Rewritten
import Mathlib.Tactic.FieldSimp
import Mathlib.Tactic.Linarith
import Mathlib.Tactic.LinearCombination

/-!
# Rounding to the nearest

Numbers are rounded twice, to the multiples of a millionth when they are written, and to the magnitudes
of finite numbers when they are read. Both times the result is a nearest one, and the even one if there
are two (`IsRounding`), where multiples are counted from zero and so are the places of magnitudes.
-/

namespace Fluxion

/-! ### Nearest values -/

/-- Among all values the one at an index is nearest to a number; and if another one is as near, the
index is even. -/
structure IsRounding {ι : Type} [Add ι] (value : ι → ℝ) (r : ℝ) (i : ι) : Prop where
  nearest : ∀ j, |r - value i| ≤ |r - value j|
  even : ∀ j, j ≠ i → |r - value j| = |r - value i| → Even i

/-- Up to the middle between two numbers, the lower one is the nearer. -/
theorem near_lower {a b r : ℝ} (hab : a < b) (h : 2 * r ≤ a + b) :
    |r - a| ≤ |r - b| ∧ (|r - b| = |r - a| → 2 * r = a + b) := by
  have hb : |r - b| = b - r := by
    rw [abs_sub_comm, abs_of_pos]
    linarith
  rw [hb]
  rcases abs_cases (r - a) with ⟨ha, -⟩ | ⟨ha, -⟩ <;> rw [ha]
  · exact ⟨by linarith, fun heq => by linarith⟩
  · exact ⟨by linarith, fun heq => by linarith⟩

/-- From the middle between two numbers on, the upper one is the nearer. -/
theorem near_upper {a b r : ℝ} (hab : a < b) (h : a + b ≤ 2 * r) :
    |r - b| ≤ |r - a| ∧ (|r - a| = |r - b| → a + b = 2 * r) := by
  have ha : |r - a| = r - a := by
    rw [abs_of_pos]
    linarith
  rw [ha]
  rcases abs_cases (r - b) with ⟨hb, -⟩ | ⟨hb, -⟩ <;> rw [hb]
  · exact ⟨by linarith, fun heq => by linarith⟩
  · exact ⟨by linarith, fun heq => by linarith⟩

namespace IsRounding

variable {ι : Type} [Add ι] {value : ι → ℝ} {r : ℝ} {i : ι}

/-- What is not beyond the middle between a value and any other one is rounded to it. -/
theorem of_middle [LinearOrder ι] (hvalue : StrictMono value)
    (hhigh : ∀ j, i < j → 2 * r ≤ value i + value j ∧ (2 * r = value i + value j → Even i))
    (hlow : ∀ j, j < i → value j + value i ≤ 2 * r ∧ (value j + value i = 2 * r → Even i)) :
    IsRounding value r i where
  nearest j := by
    rcases lt_trichotomy i j with hij | rfl | hji
    · exact (near_lower (hvalue hij) (hhigh j hij).1).1
    · exact le_rfl
    · exact (near_upper (hvalue hji) (hlow j hji).1).1
  even j hne heq := by
    rcases lt_or_gt_of_ne hne with hji | hij
    · exact (hlow j hji).2 ((near_upper (hvalue hji) (hlow j hji).1).2 heq)
    · exact (hhigh j hij).2 ((near_lower (hvalue hij) (hhigh j hij).1).2 heq)

/-- Rounding does not depend on the unit. -/
theorem div (h : IsRounding value r i) {k : ℝ} (hk : 0 < k) :
    IsRounding (fun j => value j / k) (r / k) i := by
  have hdist (j : ι) : |r / k - value j / k| = |r - value j| / k := by
    rw [← sub_div, abs_div, abs_of_pos hk]
  refine ⟨fun j => ?_, fun j hne heq => ?_⟩
  · rw [hdist, hdist]
    exact div_le_div_of_nonneg_right (h.nearest j) hk.le
  · rw [hdist, hdist, div_left_inj' hk.ne'] at heq
    exact h.even j hne heq

end IsRounding

/-- Rounding to multiples does not depend on the sign. -/
theorem IsRounding.neg {value : ℤ → ℝ} (hvalue : ∀ n, value (-n) = -value n) {r : ℝ} {n : ℤ}
    (h : IsRounding value r n) : IsRounding value (-r) (-n) := by
  have hdist (m : ℤ) : |-r - value m| = |r - value (-m)| := by
    rw [hvalue, ← abs_neg]
    congr 1
    ring
  refine ⟨fun m => ?_, fun m hne heq => ?_⟩
  · rw [hdist, hdist, neg_neg]
    exact h.nearest (-m)
  · rw [hdist, hdist, neg_neg] at heq
    exact even_neg.mpr (h.even (-m) (fun hm => hne (neg_eq_iff_eq_neg.mp hm)) heq)

namespace Binary64

/-! ### Multiples of a millionth -/

/-- Halfway between two whole numbers the even one is taken. -/
theorem even_roundHalfEven {num den : Nat} (hden : 0 < den)
    (h : 2 * num = 2 * (roundHalfEven num den * den) + den ∨
      2 * (roundHalfEven num den * den) = 2 * num + den) : Even (roundHalfEven num den) := by
  have hdiv : num / den * den + num % den = num := Nat.div_add_mod' num den
  have hmod := Nat.mod_lt num hden
  have hsucc : (num / den + 1) * den = num / den * den + den := Nat.succ_mul _ _
  rw [Nat.even_iff]
  unfold roundHalfEven at h ⊢
  cases hcompare : compare (2 * (num % den)) den with
  | lt =>
    have hlt := compare_lt_iff_lt.mp hcompare
    simp only [hcompare] at h
    omega
  | eq =>
    simp only
    omega
  | gt =>
    have hgt := compare_gt_iff_gt.mp hcompare
    simp only [hcompare] at h
    omega

/-- Rounding to a whole number takes a nearest one, and of two the even one. -/
theorem isRounding_roundHalfEven (num : Nat) {den : Nat} (hden : 0 < den) :
    IsRounding (fun n : ℤ => (n : ℝ)) ((num : ℝ) / den) (roundHalfEven num den) := by
  have hd : (0 : ℝ) < den := Nat.cast_pos.mpr hden
  obtain ⟨hhigh, hlow⟩ := roundHalfEven_bounds hden num
  have htie : 2 * num = 2 * (roundHalfEven num den * den) + den ∨
      2 * (roundHalfEven num den * den) = 2 * num + den → Even (roundHalfEven num den) :=
    even_roundHalfEven hden
  generalize roundHalfEven num den = n at hhigh hlow htie
  obtain ⟨x, hx⟩ : ∃ x : ℝ, x = num / den := ⟨_, rfl⟩
  have hnum : (num : ℝ) = x * den := by rw [hx, div_mul_cancel₀ _ hd.ne']
  rw [← hx]
  have hhigh' : 2 * x ≤ 2 * n + 1 := by
    have : (2 * num : ℝ) ≤ 2 * (n * den) + den := by exact_mod_cast hhigh
    rw [hnum] at this
    exact le_of_mul_le_mul_right (by linarith) hd
  have hlow' : 2 * n ≤ 2 * x + 1 := by
    have : (2 * (n * den) : ℝ) ≤ 2 * num + den := by exact_mod_cast hlow
    rw [hnum] at this
    exact le_of_mul_le_mul_right (by linarith) hd
  have htie' (h : 2 * x = 2 * n + 1 ∨ 2 * n = 2 * x + 1) : Even (n : ℤ) := by
    refine (Int.even_coe_nat n).mpr (htie (h.imp (fun heq => ?_) fun heq => ?_))
    · have : (2 * num : ℝ) = 2 * (n * den) + den := by
        rw [hnum]
        linear_combination den * heq
      exact_mod_cast this
    · have : (2 * (n * den) : ℝ) = 2 * num + den := by
        rw [hnum]
        linear_combination den * heq
      exact_mod_cast this
  refine .of_middle Int.cast_strictMono (fun j hj => ?_) (fun j hj => ?_)
  · have hj' : (n : ℝ) + 1 ≤ j := by exact_mod_cast hj
    rw [Int.cast_natCast]
    exact ⟨by linarith, fun heq => htie' (.inl (by linarith))⟩
  · have hj' : (j : ℝ) + 1 ≤ n := by exact_mod_cast hj
    rw [Int.cast_natCast]
    exact ⟨by linarith, fun heq => htie' (.inr (by linarith))⟩

/-! ### Magnitudes -/

/-- The magnitude at a place, as a real number. -/
noncomputable def magnitude (place : Nat) : ℝ := unitsAt place / unitsPerOne

theorem magnitude_strictMono : StrictMono magnitude := by
  intro p q hpq
  exact div_lt_div_of_pos_right (Nat.cast_lt.mpr (unitsAt_strictMono hpq)) cast_unitsPerOne_pos

/-- Halfway between two places the even one is taken. -/
theorem nearestPlace_of_middle {num den place : Nat} (hden : 0 < den)
    (h : 2 * num = den * (unitsAt place + unitsAt (place + 1))) :
    nearestPlace num den = place + place % 2 := by
  have hstep : den * unitsAt place < den * unitsAt (place + 1) :=
    Nat.mul_lt_mul_of_pos_left (unitsAt_strictMono (Nat.lt_succ_self place)) hden
  have hlow := mul_unitsAt_placeBelow_le num den
  have hhigh := lt_mul_unitsAt_placeBelow_succ hden num
  have lt_of_mul {p q : Nat} (hpq : den * unitsAt p < den * unitsAt q) : p < q :=
    unitsAt_strictMono.lt_iff_lt.mp (Nat.lt_of_mul_lt_mul_left hpq)
  have hplace : placeBelow (num / den) = place := by
    rw [Nat.mul_add] at h
    have h₁ : placeBelow (num / den) < place + 1 := lt_of_mul (by omega)
    have h₂ : place < placeBelow (num / den) + 1 := lt_of_mul (by omega)
    omega
  unfold nearestPlace
  simp only [hplace, h, lt_irrefl, if_false, if_true]

section

variable {num den : Nat}

theorem two_mul_div_eq (num : Nat) (hden : 0 < den) : 2 * ((num : ℝ) / den) =
    ((2 * (num * unitsPerOne) : Nat) : ℝ) / (den * unitsPerOne) := by
  have hd : (den : ℝ) ≠ 0 := Nat.cast_ne_zero.mpr hden.ne'
  have hu := cast_unitsPerOne_pos.ne'
  push_cast
  field_simp

theorem magnitude_add_eq (p q : Nat) (hden : 0 < den) : magnitude p + magnitude q =
    ((den * (unitsAt p + unitsAt q) : Nat) : ℝ) / (den * unitsPerOne) := by
  have hd : (den : ℝ) ≠ 0 := Nat.cast_ne_zero.mpr hden.ne'
  have hu := cast_unitsPerOne_pos.ne'
  rw [magnitude, magnitude]
  push_cast
  field_simp

/-- **Reading rounds to a nearest magnitude**, of two to the one at an even place. -/
theorem isRounding_nearestPlace (num : Nat) (hden : 0 < den) :
    IsRounding magnitude ((num : ℝ) / den) (nearestPlace (num * unitsPerOne) den) := by
  have hscale : (0 : ℝ) < den * unitsPerOne :=
    mul_pos (Nat.cast_pos.mpr hden) cast_unitsPerOne_pos
  have hmono {p q : Nat} (hpq : p ≤ q) : den * unitsAt p ≤ den * unitsAt q :=
    Nat.mul_le_mul_left den (unitsAt_strictMono.monotone hpq)
  obtain ⟨place, hplace⟩ : ∃ place, nearestPlace (num * unitsPerOne) den = place := ⟨_, rfl⟩
  rw [hplace]
  refine .of_middle magnitude_strictMono (fun j hj => ?_) (fun j hj => ?_) <;>
    rw [two_mul_div_eq num hden, magnitude_add_eq _ _ hden, div_le_div_iff_of_pos_right hscale,
      div_left_inj' hscale.ne', Nat.cast_le, Nat.cast_inj, Nat.mul_add]
  · have hmiddle := two_mul_le_of_nearestPlace_eq hden hplace
    have hnext := hmono (p := place + 1) hj
    rw [Nat.mul_add] at hmiddle
    refine ⟨by omega, fun heq => ?_⟩
    have htie : nearestPlace (num * unitsPerOne) den = place + place % 2 :=
      nearestPlace_of_middle hden (by rw [Nat.mul_add]; omega)
    rw [Nat.even_iff]
    omega
  · obtain ⟨p, rfl⟩ : ∃ p, place = p + 1 := ⟨place - 1, by omega⟩
    have hmiddle := le_two_mul_of_nearestPlace_eq hplace
    have hnext := hmono (Nat.le_of_lt_succ hj)
    rw [Nat.mul_add] at hmiddle
    refine ⟨by omega, fun heq => ?_⟩
    have htie : nearestPlace (num * unitsPerOne) den = p + p % 2 :=
      nearestPlace_of_middle hden (by rw [Nat.mul_add]; omega)
    rw [Nat.even_iff]
    omega

end

/-- **Writing rounds to a nearest multiple of a millionth**, of two to the even one. -/
theorem isRounding_millionths (place : Nat) :
    IsRounding (fun n : ℤ => (n : ℝ) / 10 ^ 6) (magnitude place) (millionths place) := by
  have hmagnitude : magnitude place = ((unitsAt place * 1000000 : Nat) : ℝ) / unitsPerOne / 10 ^ 6 := by
    rw [magnitude]
    push_cast
    ring
  rw [hmagnitude]
  exact (isRounding_roundHalfEven _ unitsPerOne_pos).div (by positivity)

end Binary64

end Fluxion
