import Fluxion.Proofs.Binary64.Whole

/-!
# Numbers that are written again

A number is written with six decimal places, so it need not be read as itself. But what is read is
written alike (`IsUnsigned.exists_toList_eq`), by one of two reasons. Below `2 ^ 33` the step from
one magnitude to the next is less than a millionth, so that the magnitude nearest to some millionths
is off them by less than a half and is rounded back (`millionths_nearestPlace_of_lt`). From `2 ^ 33`
on the step is more than a millionth, so that the nearest magnitude is the very one that the
millionths came from (`nearestPlace_millionths`).
-/

namespace Fluxion.Binary64

/-! ### Millionths -/

section

variable {num den n : Nat}

/-- Rounding to a whole number changes a quotient by a half at most. -/
theorem roundHalfEven_bounds (hden : 0 < den) (num : Nat) :
    2 * num ≤ 2 * (roundHalfEven num den * den) + den ∧
      2 * (roundHalfEven num den * den) ≤ 2 * num + den := by
  have hdiv : num / den * den + num % den = num := Nat.div_add_mod' num den
  have hmod := Nat.mod_lt num hden
  have hsucc : (num / den + 1) * den = num / den * den + den := Nat.succ_mul _ _
  unfold roundHalfEven
  cases hcompare : compare (2 * (num % den)) den with
  | lt =>
    have hlt := compare_lt_iff_lt.mp hcompare
    simp only
    omega
  | eq =>
    have heq := compare_eq_iff_eq.mp hcompare
    simp only
    rcases Nat.mod_two_eq_zero_or_one (num / den) with hp | hp <;> rw [hp]
    · rw [Nat.add_zero]
      omega
    · omega
  | gt =>
    have hgt := compare_gt_iff_gt.mp hcompare
    simp only
    omega

/-- A quotient that is off a whole number by less than a half is rounded to it. -/
theorem roundHalfEven_eq (hden : 0 < den) (hhigh : 2 * num < 2 * (n * den) + den)
    (hlow : 2 * (n * den) < 2 * num + den) : roundHalfEven num den = n := by
  obtain ⟨h₁, h₂⟩ := roundHalfEven_bounds hden num
  have hlt {p q : Nat} (h : 2 * (p * den) < 2 * (q * den) + 2 * den) : p < q + 1 := by
    refine Nat.lt_of_mul_lt_mul_right (a := den) ?_
    rw [Nat.succ_mul]
    omega
  have hle : roundHalfEven num den < n + 1 := hlt (by omega)
  have hge : n < roundHalfEven num den + 1 := hlt (by omega)
  omega

end

/-- From this place on, which holds `2 ^ 33`, the step between magnitudes is more than a
millionth. -/
def coarse : Nat := 1056 * 0x10000000000000

theorem le_doublings {place : Nat} (h : coarse ≤ place) : 1055 ≤ doublings place := by
  unfold coarse at h
  unfold doublings
  omega

theorem doublings_lt {place : Nat} (h : place < coarse) : doublings place < 1055 := by
  unfold coarse at h
  unfold doublings
  omega

theorem exists_unitsAt_coarse :
    ∃ d, d = 1055 ∧ unitsPerOne = 0x80000 * 2 ^ d ∧ unitsAt coarse = 0x200000000 * unitsPerOne := by
  refine ⟨_, rfl, ?_⟩
  obtain ⟨e, he, heq⟩ := exists_unitsPerOne_eq
  generalize hd : 1055 = d
  obtain rfl : e = 19 + d := by omega
  have hone : unitsPerOne = 0x80000 * 2 ^ d := by rw [heq, Nat.pow_add]
  refine ⟨hone, ?_⟩
  have hdoublings : doublings coarse = d := by rw [← hd]; rfl
  rw [unitsAt, hdoublings, Nat.shiftLeft_eq, hone]
  have : coarse - d * 0x10000000000000 = 0x10000000000000 := by rw [← hd]; rfl
  rw [this]
  omega

/-- Millionths are off by a half at most. -/
theorem millionths_bounds (place : Nat) :
    2 * (unitsAt place * 1000000) ≤ 2 * (millionths place * unitsPerOne) + unitsPerOne ∧
      2 * (millionths place * unitsPerOne) ≤ 2 * (unitsAt place * 1000000) + unitsPerOne :=
  roundHalfEven_bounds unitsPerOne_pos (unitsAt place * 1000000)

/-- Where the step is more than a millionth, the magnitude nearest to the millionths is the one that
they were rounded from. -/
theorem nearestPlace_millionths {place : Nat} (h : coarse ≤ place) :
    nearestPlace (millionths place * unitsPerOne) 1000000 = place := by
  obtain ⟨d, hd, hone, hcoarse⟩ := exists_unitsAt_coarse
  obtain ⟨hhigh, hlow⟩ := millionths_bounds place
  have hpos : 0 < 2 ^ d := Nat.two_pow_pos d
  have hstep {p : Nat} (hp : coarse ≤ p) : 2 ^ d ≤ 2 ^ doublings p :=
    Nat.pow_le_pow_right (by decide) (hd ▸ le_doublings hp)
  refine nearestPlace_eq (by decide) (fun p hp => ?_) ?_
  · subst hp
    obtain hp | hp := Nat.lt_or_ge p coarse
    · -- the first place of the range is a whole number, which is not rounded
      have hfirst : p + 1 = coarse := by omega
      have hexact : millionths (p + 1) * unitsPerOne = unitsAt (p + 1) * 1000000 := by
        rw [hfirst, millionths, hcoarse, Nat.mul_right_comm, roundHalfEven_mul unitsPerOne_pos]
      have hlt := unitsAt_strictMono (Nat.lt_add_one p)
      omega
    · have hs := hstep hp
      have hnext := unitsAt_succ p
      omega
  · have hs := hstep h
    have hnext := unitsAt_succ place
    omega

/-- Where the step is less than a millionth, the nearest magnitude is off the millionths by less
than a half. -/
theorem millionths_nearestPlace_of_lt {place : Nat} (h : place < coarse) :
    millionths (nearestPlace (millionths place * unitsPerOne) 1000000) = millionths place := by
  obtain ⟨d, hd, hone, hcoarse⟩ := exists_unitsAt_coarse
  have hstep {p : Nat} (hp : p < coarse) : 2 * 2 ^ doublings p ≤ 2 ^ d := by
    rw [← Nat.pow_succ']
    exact Nat.pow_le_pow_right (by decide) (by have := doublings_lt hp; omega)
  have hmillionths : millionths place ≤ 0x200000000 * 1000000 := by
    refine roundHalfEven_le unitsPerOne_pos ?_
    have := unitsAt_strictMono h
    omega
  have hle : millionths place * unitsPerOne ≤ 1000000 * unitsAt coarse := by
    rw [hcoarse, ← Nat.mul_assoc, Nat.mul_comm 1000000]
    exact Nat.mul_le_mul_right _ hmillionths
  obtain ⟨q, hq⟩ : ∃ q, nearestPlace (millionths place * unitsPerOne) 1000000 = q := ⟨_, rfl⟩
  have hqle : q ≤ coarse := hq ▸ nearestPlace_le (by decide) hle
  have hpos := unitsPerOne_pos
  rw [hq]
  refine roundHalfEven_eq unitsPerOne_pos ?_ ?_
  · -- the magnitude is not much more than the millionths
    cases q with
    | zero =>
      rw [unitsAt_of_lt (by decide), Nat.zero_mul, Nat.mul_zero]
      exact Nat.lt_of_lt_of_le hpos (Nat.le_add_left _ _)
    | succ p =>
      have hmiddle := le_two_mul_of_nearestPlace_eq hq
      have hs := hstep (Nat.lt_of_succ_le hqle)
      have hnext := unitsAt_succ p
      omega
  · -- and not much less
    obtain hlt | rfl := Nat.lt_or_eq_of_le hqle
    · have hmiddle := two_mul_le_of_nearestPlace_eq (by decide) hq
      have hs := hstep hlt
      have hnext := unitsAt_succ q
      omega
    · omega

/-- **Millionths are kept**: the magnitude nearest to the millionths of a magnitude has the same
millionths. -/
theorem millionths_nearestPlace (place : Nat) :
    millionths (nearestPlace (millionths place * unitsPerOne) 1000000) = millionths place := by
  obtain h | h := Nat.lt_or_ge place coarse
  · exact millionths_nearestPlace_of_lt h
  · rw [nearestPlace_millionths h]

/-- **What is written of a finite number without a sign is read as one that is written alike.** -/
theorem IsUnsigned.exists_toList_eq {v : Binary64} (h : v.IsUnsigned) :
    ∃ w, ofList? v.toList = some w ∧ w.IsUnsigned ∧ w.toList = v.toList := by
  obtain ⟨place, rfl⟩ := h
  obtain ⟨hlt, hread⟩ := ofList?_toList_finite place
  refine ⟨_, hread, ⟨_, rfl⟩, ?_⟩
  rw [toList_finite, toList_finite]
  exact congrArg writeMillionths (millionths_nearestPlace place)

end Fluxion.Binary64
