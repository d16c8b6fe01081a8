import Fluxion.Proofs.Binary64.Written

/-!
# Whole numbers

Whole numbers of at most 53 bits are among the magnitudes, so `ofNat` keeps them (`unitsAt_ofNat`),
they are written as their decimal digits (`toList_ofNat`), and reading the digits gives them back
(`ofList?_toDigits`).
-/

namespace Fluxion.Binary64

variable {n : Nat}

theorem unitsAt_placeBelow_ofNat (h : n < 0x20000000000000) :
    unitsAt (placeBelow (n * unitsPerOne)) = n * unitsPerOne := by
  obtain ⟨e, he, heq⟩ := exists_unitsPerOne_eq
  refine unitsAt_placeBelow_of_dvd ?_
  obtain rfl | hpos := Nat.eq_zero_or_pos n
  · simp
  · have hlt : n * unitsPerOne < 2 ^ (53 + e) := by
      rw [Nat.pow_add, ← heq]
      exact Nat.mul_lt_mul_of_pos_right h unitsPerOne_pos
    have hlog := (Nat.log2_lt (Nat.mul_ne_zero hpos.ne' unitsPerOne_pos.ne')).mpr hlt
    refine Nat.dvd_trans (Nat.pow_dvd_pow 2 (show _ ≤ e by omega)) ?_
    rw [← heq]
    exact Nat.dvd_mul_left _ _

theorem le_largest (h : n < 0x20000000000000) : n ≤ largest := by
  refine (Nat.le_of_lt_succ h).trans ?_
  rw [largest]
  generalize 971 = d
  rw [Nat.shiftLeft_eq]
  exact Nat.le_mul_of_pos_right _ (Nat.two_pow_pos d)

/-- A whole number is kept exactly. -/
theorem unitsAt_ofNat (h : n < 0x20000000000000) :
    ∃ place, ofNat n = .finite false place ∧ unitsAt place = n * unitsPerOne := by
  have hunits : unitsAt (nearestPlace (n * unitsPerOne) 1) = n * unitsPerOne := by
    have hplace := nearestPlace_unitsAt Nat.one_pos (placeBelow (n * unitsPerOne))
    rw [Nat.one_mul, unitsAt_placeBelow_ofNat h] at hplace
    rw [hplace, unitsAt_placeBelow_ofNat h]
  have hle : n ≤ 1 * largest := by
    rw [Nat.one_mul]
    exact le_largest h
  obtain ⟨hlt, hfinite⟩ := nearest_eq_finite false Nat.one_pos hle
  exact ⟨_, hfinite, hunits⟩

theorem isUnsigned_ofNat (h : n < 0x20000000000000) : (ofNat n).IsUnsigned := by
  obtain ⟨place, hplace, -⟩ := unitsAt_ofNat h
  exact ⟨place, hplace⟩

theorem roundHalfEven_mul {den : Nat} (hden : 0 < den) (n : Nat) :
    roundHalfEven (n * den) den = n := by
  have hcompare : compare (2 * 0) den = .lt := compare_lt_iff_lt.mpr hden
  rw [roundHalfEven, Nat.mul_mod_left, hcompare]
  exact Nat.mul_div_cancel n hden

/-- A whole number is written as its decimal digits. -/
theorem toList_ofNat (h : n < 0x20000000000000) : (ofNat n).toList = Nat.toDigits 10 n := by
  obtain ⟨place, hplace, hunits⟩ := unitsAt_ofNat h
  have hmillionths : millionths place = n * 1000000 := by
    rw [millionths, hunits, Nat.mul_right_comm, roundHalfEven_mul unitsPerOne_pos]
  rw [hplace, toList_finite, hmillionths, writeMillionths, if_pos (Nat.mul_mod_left n 1000000),
    Nat.mul_div_cancel n (by decide)]

/-- The digits of a whole number are read as the nearest number. -/
theorem ofList?_toDigits (n : Nat) : ofList? (Nat.toDigits 10 n) = some (ofNat n) := by
  rw [ofList?_whole (fun c hc => Nat.isDigit_of_mem_toDigits (by decide) (by decide) hc)
    Nat.toDigits_ne_nil, Nat.ofDigitChars_ten_toDigits]
  rfl

theorem printsBack_ofNat (h : n < 0x20000000000000) : (ofNat n).printsBack = true := by
  rw [(isUnsigned_ofNat h).printsBack_iff, toList_ofNat h, ofList?_toDigits]

/-- A number that is printed exactly, as a whole number, is that number. -/
theorem IsUnsigned.eq_ofNat {v : Binary64} (hv : v.IsUnsigned) (hback : v.printsBack = true)
    (htext : v.toList = Nat.toDigits 10 n) : v = ofNat n := by
  have hread := hv.printsBack_iff.mp hback
  rw [htext, ofList?_toDigits] at hread
  exact (Option.some_inj.mp hread).symm

end Fluxion.Binary64
