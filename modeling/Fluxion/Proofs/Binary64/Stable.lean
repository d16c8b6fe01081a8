import Fluxion.Proofs.Binary64.Opposite
import Fluxion.Proofs.Binary64.Rounding

/-!
# The text of a number

The text of a finite number is the canonical decimal for its millionths, behind a minus if its sign bit
is set (`Binary64.toList_finite_eq`). It is read as a finite number with that sign
(`Binary64.ofList?_toList`), which need not be the number itself but is written alike. Both ways are
roundings, and `Binary64.text_canonical` is the whole of it.
-/

namespace Fluxion

namespace CanonicalDecimal

/-- The number that a decimal stands for. -/
noncomputable def value (d : CanonicalDecimal) : ℝ := d.coefficient / tenTo d.places.length

/-- The decimal of a number of millionths stands for them. -/
theorem value_ofMillionths (n : Nat) : (ofMillionths n).value = n / 10 ^ 6 := by
  have hscale := Binary64.tenTo_mul_tenTo (ofMillionths n).length_places_le
  have hvalue := coefficient_ofMillionths n
  have hcross : (ofMillionths n).coefficient * 1000000 =
      n * tenTo (ofMillionths n).places.length := by
    rw [← hscale, Nat.mul_comm (tenTo _), ← Nat.mul_assoc, hvalue]
  have hpos : (tenTo (ofMillionths n).places.length : ℝ) ≠ 0 :=
    Nat.cast_ne_zero.mpr (tenTo_pos _).ne'
  rw [value, div_eq_div_iff hpos (by positivity)]
  norm_num
  exact_mod_cast hcross

end CanonicalDecimal

namespace Binary64

variable (negative : Bool) (place : Fin 0x7FF0000000000000)

/-- A finite number is written as a minus for its sign bit and the decimal of its millionths. -/
theorem toList_finite_eq : toList (.finite negative place) =
    writeSign negative ++ (CanonicalDecimal.ofMillionths (millionths place)).chars := by
  rw [toList, CanonicalDecimal.chars_ofMillionths]

/-- It is read as the number of the same sign that is nearest to the millionths. -/
theorem ofList?_toList : ∃ hlt, ofList? (toList (.finite negative place)) =
    some (.finite negative ⟨nearestPlace (millionths place * unitsPerOne) 1000000, hlt⟩) := by
  obtain ⟨hlt, hread⟩ := ofList?_toList_finite place
  refine ⟨hlt, ?_⟩
  cases negative with
  | false => exact hread
  | true =>
    have hsign := (CanonicalDecimal.ofMillionths (millionths place)).splitSign_chars
    rw [CanonicalDecimal.chars_ofMillionths, ← toList_finite] at hsign
    rw [toList_negative, ofList?_minus hsign, hread]
    rfl

/-- What it stands for is rounded to millionths, with its sign. -/
theorem exists_isRounding_toReal : ∃ n : ℤ,
    (if negative then -1 else 1) * (CanonicalDecimal.ofMillionths (millionths place)).value =
        (n : ℝ) / 10 ^ 6 ∧
      IsRounding (fun n : ℤ => (n : ℝ) / 10 ^ 6) (toReal (.finite negative place)) n := by
  have hround := isRounding_millionths place
  rw [CanonicalDecimal.value_ofMillionths]
  cases negative with
  | false => exact ⟨millionths place, by simp, by simpa [toReal, magnitude] using hround⟩
  | true =>
    have hopposite := hround.neg fun n => by
      push_cast
      ring
    refine ⟨-millionths place, ?_, by simpa [toReal, magnitude] using hopposite⟩
    rw [if_pos rfl]
    push_cast
    ring

/-- **The text of a number is canonical and stable.** It is a canonical decimal, behind a minus if the
sign bit is set, and stands for the multiple of a millionth that the number is rounded to. It is read as
the finite number, of the same sign, that the decimal is rounded to; and this number has that text
again. -/
theorem text_canonical : ∃ d : CanonicalDecimal,
    text (.finite negative place) = (if negative then "-" else "") ++ String.ofList d.chars ∧
    (∃ n : ℤ, (if negative then -1 else 1) * d.value = (n : ℝ) / 10 ^ 6 ∧
      IsRounding (fun n : ℤ => (n : ℝ) / 10 ^ 6) (toReal (.finite negative place)) n) ∧
    ∃ place', ofText? (text (.finite negative place)) = some (.finite negative place') ∧
      IsRounding magnitude d.value place' ∧
      text (.finite negative place') = text (.finite negative place) := by
  obtain ⟨hlt, hread⟩ := ofList?_toList negative place
  refine ⟨.ofMillionths (millionths place), ?_, exists_isRounding_toReal negative place,
    ⟨nearestPlace (millionths place * unitsPerOne) 1000000, hlt⟩, ?_, ?_, ?_⟩
  · rw [text, toList_finite_eq, String.ofList_append]
    cases negative <;> rfl
  · rw [ofText?, text, String.toList_ofList, hread]
  · have hround := isRounding_nearestPlace (millionths place) (show 0 < 1000000 by decide)
    rw [CanonicalDecimal.value_ofMillionths]
    norm_num at hround ⊢
    exact hround
  · rw [text, text, toList_finite_eq, toList_finite_eq]
    exact congrArg (fun n => String.ofList (writeSign negative ++ (CanonicalDecimal.ofMillionths n).chars))
      (millionths_nearestPlace place)

end Binary64

end Fluxion
