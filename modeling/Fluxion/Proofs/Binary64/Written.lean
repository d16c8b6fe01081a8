import Fluxion.Proofs.Binary64.Canonical
import Fluxion.Proofs.Binary64.Place

/-!
# Reading what is written

The characters of a finite number without a sign are digits, with a point among them where there are
decimal places (`IsUnsigned.isDigit_or_eq_of_mem_toList`), and they spell such a number again
(`IsUnsigned.ofList?_toList`), though not always the same one. Rounding to millionths cannot bring a
number above the largest one, which is a whole number itself.
-/

namespace Fluxion.Binary64

/-! ### Finite numbers -/

/-- A finite number whose sign is clear. -/
def IsUnsigned (value : Binary64) : Prop := ∃ place, value = .finite false place

/-- The largest magnitude of a finite number, which is a whole number. -/
def largest : Nat := 0x1FFFFFFFFFFFFF <<< 971

theorem unitsAt_last : unitsAt 0x7FEFFFFFFFFFFFFF = largest * unitsPerOne := by
  decide +kernel

/-- The units that make one are a power of two. -/
theorem exists_unitsPerOne_eq : ∃ e, e = 1074 ∧ unitsPerOne = 2 ^ e := by
  refine ⟨_, rfl, ?_⟩
  generalize hd : 1074 = d
  rw [unitsPerOne, hd, Nat.one_shiftLeft]

theorem unitsPerOne_pos : 0 < unitsPerOne := by
  obtain ⟨e, -, heq⟩ := exists_unitsPerOne_eq
  rw [heq]
  exact Nat.two_pow_pos e

theorem nearest_eq_finite (negative : Bool) {num den : Nat} (hden : 0 < den)
    (h : num ≤ den * largest) : ∃ hlt, nearest negative num den =
      .finite negative ⟨nearestPlace (num * unitsPerOne) den, hlt⟩ := by
  have hle : nearestPlace (num * unitsPerOne) den ≤ 0x7FEFFFFFFFFFFFFF := by
    refine nearestPlace_le hden ?_
    rw [unitsAt_last, ← Nat.mul_assoc]
    exact Nat.mul_le_mul_right _ h
  have hlt : nearestPlace (num * unitsPerOne) den < 0x7FF0000000000000 := Nat.lt_succ_of_le hle
  exact ⟨hlt, dif_pos hlt⟩

theorem roundHalfEven_le {num den bound : Nat} (hden : 0 < den) (h : num ≤ bound * den) :
    roundHalfEven num den ≤ bound := by
  have hle : num / den ≤ bound := Nat.div_le_of_le_mul (by rwa [Nat.mul_comm])
  rw [roundHalfEven]
  obtain heq | hlt := hle.eq_or_lt
  · -- nothing is left over to be rounded
    have hrest : num % den = 0 := by
      have := Nat.div_add_mod num den
      rw [heq, Nat.mul_comm] at this
      omega
    have hcompare : compare (2 * 0) den = .lt := compare_lt_iff_lt.mpr hden
    rw [hrest, hcompare]
    exact hle
  · split <;> omega

theorem millionths_le (place : Fin 0x7FF0000000000000) :
    millionths place ≤ largest * 1000000 := by
  refine roundHalfEven_le unitsPerOne_pos ?_
  calc unitsAt place * 1000000
      ≤ largest * unitsPerOne * 1000000 := by
        rw [← unitsAt_last]
        exact Nat.mul_le_mul_right _ (unitsAt_strictMono.monotone (Nat.le_of_lt_succ place.isLt))
    _ = largest * 1000000 * unitsPerOne := Nat.mul_right_comm _ _ _

theorem toList_finite (place : Fin 0x7FF0000000000000) :
    toList (.finite false place) = writeMillionths (millionths place) := by
  rw [toList, writeSign, if_neg Bool.false_ne_true, List.nil_append]

theorem toList_negative (place : Fin 0x7FF0000000000000) :
    toList (.finite true place) = '-' :: toList (.finite false place) := by
  rw [toList_finite, toList, writeSign, if_pos rfl, List.singleton_append]

theorem tenTo_mul_tenTo {places : Nat} (h : places ≤ 6) :
    tenTo places * tenTo (6 - places) = 1000000 := by
  rw [tenTo, tenTo, Nat.pow_eq, Nat.pow_eq, ← Nat.pow_add, Nat.add_sub_cancel' h]

/-- Of a quotient the double nearest to it depends on its value alone. -/
theorem nearest_mul_right (negative : Bool) (num den : Nat) {k : Nat} (hk : 0 < k) :
    nearest negative (num * k) (den * k) = nearest negative num den := by
  have hplace : nearestPlace (num * k * unitsPerOne) (den * k) =
      nearestPlace (num * unitsPerOne) den := by
    rw [Nat.mul_right_comm, nearestPlace_mul_right _ _ hk]
  simp only [nearest, hplace]

/-- **What is written of millionths is read as the double nearest to them.** -/
theorem ofList?_writeMillionths (n : Nat) :
    ofList? (writeMillionths n) = some (nearest false n 1000000) := by
  have hvalue := CanonicalDecimal.coefficient_ofMillionths n
  have hscale := tenTo_mul_tenTo (CanonicalDecimal.ofMillionths n).length_places_le
  rw [← CanonicalDecimal.chars_ofMillionths, CanonicalDecimal.ofList?_chars,
    ← nearest_mul_right _ _ _ (tenTo_pos (6 - (CanonicalDecimal.ofMillionths n).places.length)),
    hvalue, hscale]

/-- What is written of a finite number without a sign is read as the one nearest to its millionths. -/
theorem ofList?_toList_finite (place : Fin 0x7FF0000000000000) :
    ∃ hlt, ofList? (toList (.finite false place)) =
      some (.finite false ⟨nearestPlace (millionths place * unitsPerOne) 1000000, hlt⟩) := by
  have hle : millionths place ≤ 1000000 * largest := by
    rw [Nat.mul_comm]
    exact millionths_le place
  obtain ⟨hlt, hplace⟩ := nearest_eq_finite false (by decide) hle
  exact ⟨hlt, by rw [toList_finite, ofList?_writeMillionths, hplace]⟩

/-- **What is written of a finite number without a sign is read as one.** -/
theorem IsUnsigned.ofList?_toList {v : Binary64} (h : v.IsUnsigned) :
    ∃ w, ofList? v.toList = some w ∧ w.IsUnsigned := by
  obtain ⟨place, rfl⟩ := h
  obtain ⟨hlt, hread⟩ := ofList?_toList_finite place
  exact ⟨_, hread, ⟨_, hlt⟩, rfl⟩

theorem IsUnsigned.isDigit_or_eq_of_mem_toList {v : Binary64} (hv : v.IsUnsigned) {c : Char}
    (h : c ∈ v.toList) : c.isDigit = true ∨ c = '.' := by
  obtain ⟨place, rfl⟩ := hv
  rw [toList_finite, ← CanonicalDecimal.chars_ofMillionths] at h
  exact CanonicalDecimal.isDigit_or_eq_of_mem_chars _ h

/-! ### Numbers that are printed exactly -/

/-- Whether the text of a number is read as the same value. -/
def printsBack (value : Binary64) : Bool := (ofText? value.text).any (sameValue · value)

theorem exists_of_printsBack {v : Binary64} (h : v.printsBack = true) :
    ∃ w, ofList? v.toList = some w ∧ w.sameValue v = true := by
  rwa [printsBack, ofText?, text, String.toList_ofList, Option.any_eq_true] at h

theorem IsUnsigned.eq_of_sameValue {v w : Binary64} (hv : v.IsUnsigned) (hw : w.IsUnsigned)
    (h : v.sameValue w = true) : v = w := by
  obtain ⟨k, rfl⟩ := hv
  obtain ⟨l, rfl⟩ := hw
  simp only [sameValue, Bool.and_eq_true, decide_eq_true_eq] at h
  rw [h.1]

theorem IsUnsigned.printsBack_iff {v : Binary64} (hv : v.IsUnsigned) :
    v.printsBack = true ↔ ofList? v.toList = some v := by
  obtain ⟨w, hread, hw⟩ := hv.ofList?_toList
  rw [printsBack, ofText?, text, String.toList_ofList, hread, Option.any_some, Option.some_inj]
  refine ⟨hw.eq_of_sameValue hv, ?_⟩
  rintro rfl
  obtain ⟨place, rfl⟩ := hw
  exact (sameValue_self _).mpr nofun

end Fluxion.Binary64
