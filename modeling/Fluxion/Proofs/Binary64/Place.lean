import Fluxion.Binary64.Basic
import Mathlib.Order.Monotone.Basic
import Mathlib.Tactic.Ring

/-!
# Places and magnitudes

The list of all magnitudes is strictly ascending (`unitsAt_strictMono`), and `placeBelow` finds, for
any number of units, the two neighbours in the list that it lies between (`unitsAt_placeBelow_le`,
`lt_unitsAt_placeBelow_succ`). So rounding to the nearest place never passes a magnitude that is at
least the rounded number (`nearestPlace_le`), and what is off a magnitude by less than half the step
on either side is rounded to it (`nearestPlace_eq`).
-/

namespace Fluxion.Binary64

/-- The step from one magnitude to the next is one unit, doubled as often as the place says. -/
theorem unitsAt_succ (place : Nat) :
    unitsAt (place + 1) = unitsAt place + 2 ^ doublings place := by
  simp only [unitsAt, Nat.shiftLeft_eq]
  by_cases h : doublings (place + 1) = doublings place
  · rw [h, ← Nat.succ_mul]
    congr 1
    unfold doublings
    omega
  · -- the place is the last one before the step doubles
    obtain ⟨d, hd, hd', hp⟩ : ∃ d, doublings place = d ∧ doublings (place + 1) = d + 1 ∧
        place + 1 = (d + 2) * 0x10000000000000 := by
      refine ⟨_, rfl, ?_⟩
      unfold doublings at h ⊢
      omega
    rw [hd, hd', show place + 1 - (d + 1) * 0x10000000000000 = 0x10000000000000 by omega,
      show place - d * 0x10000000000000 = 2 * 0x10000000000000 - 1 by omega, Nat.pow_succ]
    omega

theorem unitsAt_strictMono : StrictMono unitsAt :=
  strictMono_nat_of_lt_succ fun place => by
    rw [unitsAt_succ]
    exact Nat.lt_add_of_pos_right (Nat.two_pow_pos _)

/-- How many low bits are dropped to find the place of some units. -/
theorem doublings_placeBelow (units : Nat) : doublings (placeBelow units) = units.log2 - 52 := by
  by_cases h : units.log2 < 53
  · have hlt : units < 0x20000000000000 := by
      by_cases h0 : units = 0
      · omega
      · exact (Nat.log2_lt h0).mp h
    rw [placeBelow_of_lt hlt]
    unfold doublings
    omega
  · -- the bits that are kept are exactly 53
    obtain ⟨d, hd⟩ : ∃ d, units.log2 = d + 52 := ⟨units.log2 - 52, by omega⟩
    have h0 : units ≠ 0 := fun h0 => h (by rw [h0]; decide)
    have hlow : 0x10000000000000 ≤ units >>> d := by
      rw [Nat.shiftRight_eq_div_pow, Nat.le_div_iff_mul_le (Nat.two_pow_pos _)]
      calc 0x10000000000000 * 2 ^ d = 2 ^ (d + 52) := by rw [Nat.pow_add, Nat.mul_comm]
        _ ≤ units := by rw [← hd]; exact Nat.log2_self_le h0
    have hhigh : units >>> d < 0x20000000000000 := by
      rw [Nat.shiftRight_eq_div_pow, Nat.div_lt_iff_lt_mul (Nat.two_pow_pos _)]
      calc units < 2 ^ (d + 53) := by
            rw [show d + 53 = units.log2 + 1 by omega]
            exact Nat.lt_log2_self
        _ = 0x20000000000000 * 2 ^ d := by rw [Nat.pow_add, Nat.mul_comm]
    simp only [doublings, placeBelow, hd, Nat.add_sub_cancel]
    omega

theorem unitsAt_placeBelow (units : Nat) :
    unitsAt (placeBelow units) =
      units / 2 ^ (units.log2 - 52) * 2 ^ (units.log2 - 52) := by
  rw [unitsAt, doublings_placeBelow, placeBelow, Nat.add_sub_cancel_left, Nat.shiftLeft_eq,
    Nat.shiftRight_eq_div_pow]

theorem unitsAt_placeBelow_le (units : Nat) : unitsAt (placeBelow units) ≤ units := by
  rw [unitsAt_placeBelow]
  exact Nat.div_mul_le_self units _

theorem lt_unitsAt_placeBelow_succ (units : Nat) : units < unitsAt (placeBelow units + 1) := by
  rw [unitsAt_succ, unitsAt_placeBelow, doublings_placeBelow, ← Nat.succ_mul]
  exact Nat.lt_mul_of_div_lt (Nat.lt_succ_self _) (Nat.two_pow_pos _)

/-- Units with no low bits to drop are a magnitude. -/
theorem unitsAt_placeBelow_of_dvd {units : Nat} (h : 2 ^ (units.log2 - 52) ∣ units) :
    unitsAt (placeBelow units) = units := by
  rw [unitsAt_placeBelow, Nat.div_mul_cancel h]

theorem placeBelow_unitsAt (place : Nat) : placeBelow (unitsAt place) = place := by
  have hle := unitsAt_strictMono.le_iff_le.mp (unitsAt_placeBelow_le (unitsAt place))
  have hlt := unitsAt_strictMono.lt_iff_lt.mp (lt_unitsAt_placeBelow_succ (unitsAt place))
  omega

/-- What is not above a magnitude is below the middle between it and the next one. -/
theorem two_mul_lt_middle {num den place : Nat} (hden : 0 < den) (h : num ≤ den * unitsAt place) :
    2 * num < den * (unitsAt place + unitsAt (place + 1)) := by
  rw [Nat.mul_add, Nat.two_mul]
  exact Nat.add_lt_add_of_le_of_lt h
    (h.trans_lt (Nat.mul_lt_mul_of_pos_left (unitsAt_strictMono (Nat.lt_succ_self _)) hden))

/-- A magnitude is rounded to itself. -/
theorem nearestPlace_unitsAt {den : Nat} (hden : 0 < den) (place : Nat) :
    nearestPlace (den * unitsAt place) den = place := by
  unfold nearestPlace
  simp only [Nat.mul_div_cancel_left _ hden, placeBelow_unitsAt, two_mul_lt_middle hden le_rfl,
    if_true]

/-- Rounding stays at or below each magnitude that the rounded number does not exceed. -/
theorem nearestPlace_le {num den place : Nat} (hden : 0 < den) (h : num ≤ den * unitsAt place) :
    nearestPlace num den ≤ place := by
  have hle : unitsAt (placeBelow (num / den)) ≤ unitsAt place :=
    (unitsAt_placeBelow_le _).trans (Nat.div_le_of_le_mul h)
  unfold nearestPlace
  generalize hp : placeBelow (num / den) = p at hle
  obtain heq | hlt := (unitsAt_strictMono.le_iff_le.mp hle).eq_or_lt
  · -- the number is not above the lower neighbour, so it is nearer to it
    subst heq
    simp only [two_mul_lt_middle hden h, if_true, le_refl]
  · simp only
    split
    · exact hlt.le
    · split <;> omega

/-! ### The nearest place -/

section

variable {num den place : Nat}

theorem mul_unitsAt_placeBelow_le (num den : Nat) :
    den * unitsAt (placeBelow (num / den)) ≤ num :=
  (Nat.mul_le_mul_left den (unitsAt_placeBelow_le _)).trans (Nat.mul_div_le num den)

theorem lt_mul_unitsAt_placeBelow_succ (hden : 0 < den) (num : Nat) :
    num < den * unitsAt (placeBelow (num / den) + 1) :=
  (Nat.lt_mul_div_succ num hden).trans_le
    (Nat.mul_le_mul_left den (lt_unitsAt_placeBelow_succ (num / den)))

/-- The rounded number is at most the middle between its place and the next one. -/
theorem two_mul_le_of_nearestPlace_eq (hden : 0 < den) (h : nearestPlace num den = place) :
    2 * num ≤ den * (unitsAt place + unitsAt (place + 1)) := by
  have hbelow := lt_mul_unitsAt_placeBelow_succ hden num
  have hnext (p : Nat) : den * unitsAt p ≤ den * unitsAt (p + 1) :=
    Nat.mul_le_mul_left den (unitsAt_strictMono (Nat.lt_succ_self p)).le
  subst h
  unfold nearestPlace
  generalize placeBelow (num / den) = p at hbelow ⊢
  have hp := hnext (p + 1)
  simp only [Nat.mul_add] at hbelow hp ⊢
  split_ifs with hlt heq
  · omega
  · rcases Nat.mod_two_eq_zero_or_one p with hp2 | hp2 <;> rw [hp2]
    · exact heq.le
    · omega
  · omega

/-- The rounded number is at least the middle between its place and the one before. -/
theorem le_two_mul_of_nearestPlace_eq (h : nearestPlace num den = place + 1) :
    den * (unitsAt place + unitsAt (place + 1)) ≤ 2 * num := by
  have hbelow := mul_unitsAt_placeBelow_le num den
  have hnext : den * unitsAt place ≤ den * unitsAt (place + 1) :=
    Nat.mul_le_mul_left den (unitsAt_strictMono (Nat.lt_succ_self place)).le
  unfold nearestPlace at h
  generalize placeBelow (num / den) = p at h hbelow
  -- rounding down leaves the number above its place, rounding up above the middle
  have hor : p = place + 1 ∨ p = place ∧ den * (unitsAt p + unitsAt (p + 1)) ≤ 2 * num := by
    simp only at h
    split_ifs at h with hlt heq
    · exact .inl h
    · rcases Nat.mod_two_eq_zero_or_one p with hp2 | hp2 <;> rw [hp2] at h
      · exact .inl h
      · exact .inr ⟨Nat.succ_injective h, heq.ge⟩
    · exact .inr ⟨Nat.succ_injective h, by omega⟩
  rcases hor with rfl | ⟨rfl, hmiddle⟩
  · rw [Nat.mul_add]
    omega
  · exact hmiddle

/-- A number strictly between the middles on both sides of a place is rounded to it. -/
theorem nearestPlace_eq (hden : 0 < den)
    (hlow : ∀ p, place = p + 1 → den * (unitsAt p + unitsAt (p + 1)) < 2 * num)
    (hhigh : 2 * num < den * (unitsAt place + unitsAt (place + 1))) :
    nearestPlace num den = place := by
  have hmiddle {p q : Nat} (hpq : p ≤ q) :
      den * (unitsAt p + unitsAt (p + 1)) ≤ den * (unitsAt q + unitsAt (q + 1)) :=
    Nat.mul_le_mul_left den (Nat.add_le_add (unitsAt_strictMono.monotone hpq)
      (unitsAt_strictMono.monotone (Nat.succ_le_succ hpq)))
  rcases lt_trichotomy (nearestPlace num den) place with hlt | heq | hgt
  · obtain ⟨p, rfl⟩ : ∃ p, place = p + 1 := ⟨place - 1, by omega⟩
    have hle := two_mul_le_of_nearestPlace_eq hden (rfl : nearestPlace num den = _)
    exact absurd (hlow p rfl) (Nat.not_lt.mpr (hle.trans (hmiddle (Nat.le_of_lt_succ hlt))))
  · exact heq
  · obtain ⟨p, hp⟩ : ∃ p, nearestPlace num den = p + 1 := ⟨nearestPlace num den - 1, by omega⟩
    have hle := le_two_mul_of_nearestPlace_eq hp
    exact absurd hhigh (Nat.not_lt.mpr ((hmiddle (by omega)).trans hle))

/-- Only the quotient is rounded. -/
theorem nearestPlace_mul_right (num den : Nat) {k : Nat} (hk : 0 < k) :
    nearestPlace (num * k) (den * k) = nearestPlace num den := by
  have hmiddle (m : Nat) : den * k * m = den * m * k := Nat.mul_right_comm den k m
  unfold nearestPlace
  simp only [Nat.mul_div_mul_right num den hk, hmiddle, ← Nat.mul_assoc 2 num k,
    Nat.mul_lt_mul_right hk, Nat.mul_right_cancel_iff hk]

end

end Fluxion.Binary64
