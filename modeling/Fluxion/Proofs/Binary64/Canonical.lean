import Fluxion.Binary64.Fixed
import Fluxion.Binary64.Numeral
import Mathlib.Data.List.Basic
import Mathlib.Data.List.TakeWhile
import Mathlib.Tactic.Ring

/-!
# Canonical decimals

A decimal is canonical if its whole part begins with no zero, unless it is the zero alone, and if it has
at most six places and the last of them is not a zero (`CanonicalDecimal`). Its characters spell the
double nearest to its value (`CanonicalDecimal.ofList?_chars`). Millionths are written as a canonical
decimal (`CanonicalDecimal.chars_ofMillionths`), whose value they are
(`CanonicalDecimal.coefficient_ofMillionths`).
-/

namespace Fluxion

/-! ### Reading digits -/

theorem mem_digits_of_isDigit {c : Char} (h : c.isDigit = true) :
    c ∈ ['0', '1', '2', '3', '4', '5', '6', '7', '8', '9'] := by
  obtain ⟨h₁, h₂⟩ := Char.isDigit_iff_toNat.mp h
  simp only [Char.reduceToNat] at h₁ h₂
  simp only [List.mem_cons, List.not_mem_nil, or_false, ← Char.toNat_inj, Char.reduceToNat]
  omega

namespace Decimal

variable {whole fraction : List Char}

/-- What begins with neither sign is not signed. -/
theorem splitSign_of_head? {text : List Char} (hminus : text.head? ≠ some '-')
    (hplus : text.head? ≠ some '+') : splitSign text = (false, text) := by
  unfold splitSign
  split
  · exact absurd rfl hminus
  · exact absurd rfl hplus
  · rfl

/-- Digits alone. -/
theorem ofList?_whole (hw : ∀ c ∈ whole, c.isDigit = true) (hne : whole ≠ []) :
    ofList? whole = some ⟨Nat.ofDigitChars 10 whole 0, 0⟩ := by
  have htake : whole.takeWhile Char.isDigit = whole := List.takeWhile_eq_self_iff.mpr hw
  have hdrop : whole.dropWhile Char.isDigit = [] := List.dropWhile_eq_nil_iff.mpr hw
  simp only [ofList?, htake, hdrop, splitFraction, List.append_nil, if_neg hne]
  rfl

/-- Digits around a point. -/
theorem ofList?_point (hw : ∀ c ∈ whole, c.isDigit = true) (hne : whole ≠ [])
    (hf : ∀ c ∈ fraction, c.isDigit = true) :
    ofList? (whole ++ '.' :: fraction) =
      some ⟨Nat.ofDigitChars 10 (whole ++ fraction) 0, -(fraction.length : Int)⟩ := by
  have htake : (whole ++ '.' :: fraction).takeWhile Char.isDigit = whole := by
    rw [List.takeWhile_append_of_pos hw]
    simp
  have hdrop : (whole ++ '.' :: fraction).dropWhile Char.isDigit = '.' :: fraction := by
    rw [List.dropWhile_append_of_pos hw]
    rfl
  have htake' : fraction.takeWhile Char.isDigit = fraction := List.takeWhile_eq_self_iff.mpr hf
  have hdrop' : fraction.dropWhile Char.isDigit = [] := List.dropWhile_eq_nil_iff.mpr hf
  have hne' : whole ++ fraction ≠ [] := by simp [hne]
  simp only [ofList?, htake, hdrop, splitFraction, htake', hdrop', if_neg hne', exponent?,
    Option.map_some, Int.zero_sub]

/-- Few decimal places are not cut off. -/
theorem toBinary64_neg (negative : Bool) (coefficient : Nat) {places : Nat} (h : places ≤ 401) :
    toBinary64 negative ⟨coefficient, -(places : Int)⟩ =
      .nearest negative coefficient (tenTo places) := by
  have hbound : boundedExponent ⟨coefficient, -(places : Int)⟩ = -(places : Int) := by
    simp only [boundedExponent]
    omega
  rw [toBinary64, hbound]
  cases places with
  | zero => exact congrArg (Binary64.nearest negative · 1) (Nat.mul_one coefficient)
  | succ places => rfl

end Decimal

namespace Binary64

/-- What begins with a digit is a decimal or nothing. -/
theorem ofList?_cons_digit {c : Char} (h : c.isDigit = true) (rest : List Char) :
    ofList? (c :: rest) = (Decimal.ofList? (c :: rest)).map (Decimal.toBinary64 false) := by
  have hall : ∀ c ∈ ['0', '1', '2', '3', '4', '5', '6', '7', '8', '9'],
      Decimal.splitSign (c :: rest) = (false, c :: rest) ∧ c.toLower ≠ 'i' ∧ c.toLower ≠ 'n' := by
    simp [Decimal.splitSign]
  obtain ⟨hsign, hi, hn⟩ := hall c (mem_digits_of_isDigit h)
  simp only [ofList?, hsign, List.map_cons, List.cons.injEq, hi, hn, false_and, or_self, if_false]

variable {whole fraction : List Char}

/-- The number that digits spell. -/
theorem ofList?_whole (hw : ∀ c ∈ whole, c.isDigit = true) (hne : whole ≠ []) :
    ofList? whole = some (.nearest false (Nat.ofDigitChars 10 whole 0) 1) := by
  obtain ⟨c, rest, rfl⟩ := List.exists_cons_of_ne_nil hne
  rw [ofList?_cons_digit (hw c (by simp)), Decimal.ofList?_whole hw hne, Option.map_some]
  exact congrArg some (Decimal.toBinary64_neg false _ (Nat.zero_le 401))

/-- The number that digits around a point spell. -/
theorem ofList?_point (hw : ∀ c ∈ whole, c.isDigit = true) (hne : whole ≠ [])
    (hf : ∀ c ∈ fraction, c.isDigit = true) (hlen : fraction.length ≤ 401) :
    ofList? (whole ++ '.' :: fraction) =
      some (.nearest false (Nat.ofDigitChars 10 (whole ++ fraction) 0) (tenTo fraction.length)) := by
  have hpoint := Decimal.ofList?_point hw hne hf
  obtain ⟨c, rest, rfl⟩ := List.exists_cons_of_ne_nil hne
  rw [List.cons_append] at hpoint ⊢
  rw [ofList?_cons_digit (hw c (by simp)), hpoint, Option.map_some,
    Decimal.toBinary64_neg false _ hlen]

end Binary64

/-! ### Decimals in canonical form -/

/-- A decimal without a sign that has no zeros to spare, and at most six places. -/
structure CanonicalDecimal where
  /-- The digits in front of the point. -/
  whole : List Char
  /-- The digits behind the point. -/
  places : List Char
  isDigit_whole : ∀ c ∈ whole, c.isDigit = true
  whole_ne_nil : whole ≠ []
  /-- Only the whole part that is zero begins with a zero. -/
  whole_eq_of_head? : whole.head? = some '0' → whole = ['0']
  isDigit_places : ∀ c ∈ places, c.isDigit = true
  length_places_le : places.length ≤ 6
  /-- No zero stands at the end of the places. -/
  getLast?_places : places.getLast? ≠ some '0'

namespace CanonicalDecimal

variable (d : CanonicalDecimal)

/-- The characters of a decimal: a point stands in front of its places if it has any. -/
def chars : List Char := if d.places = [] then d.whole else d.whole ++ '.' :: d.places

/-- Its digits, read as one whole number. -/
def coefficient : Nat := Nat.ofDigitChars 10 (d.whole ++ d.places) 0

theorem isDigit_or_eq_of_mem_chars {c : Char} (h : c ∈ d.chars) : c.isDigit = true ∨ c = '.' := by
  unfold chars at h
  split at h
  · exact .inl (d.isDigit_whole c h)
  · rcases List.mem_append.mp h with h | h
    · exact .inl (d.isDigit_whole c h)
    · rcases List.mem_cons.mp h with h | h
      · exact .inr h
      · exact .inl (d.isDigit_places c h)

/-- The characters have no sign, since they are digits and a point. -/
theorem splitSign_chars : Decimal.splitSign d.chars = (false, d.chars) := by
  have hne {c : Char} (hc : ¬ (c.isDigit = true ∨ c = '.')) : d.chars.head? ≠ some c := fun h =>
    hc (d.isDigit_or_eq_of_mem_chars (List.mem_of_mem_head? h))
  exact Decimal.splitSign_of_head? (hne (by decide)) (hne (by decide))

/-- **The characters of a decimal spell the double nearest to it.** -/
theorem ofList?_chars : Binary64.ofList? d.chars =
    some (.nearest false d.coefficient (tenTo d.places.length)) := by
  unfold chars
  split
  · next hplaces =>
    rw [Binary64.ofList?_whole d.isDigit_whole d.whole_ne_nil, coefficient, hplaces, List.append_nil]
    rfl
  · exact Binary64.ofList?_point d.isDigit_whole d.whole_ne_nil d.isDigit_places
      (d.length_places_le.trans (by decide))

end CanonicalDecimal

/-! ### Written digits -/

namespace Binary64

theorem isDigit_of_mem_fractionDigits {count rest : Nat} (h : rest < tenTo count) :
    ∀ c ∈ fractionDigits count rest, c.isDigit = true := by
  induction count generalizing rest with
  | zero => simp [fractionDigits]
  | succ count ih =>
    intro c hc
    rw [fractionDigits] at hc
    split at hc
    · simp at hc
    · obtain rfl | hc := List.mem_cons.mp hc
      · rw [Nat.isDigit_digitChar, decide_eq_true_iff, Nat.div_lt_iff_lt_mul (tenTo_pos count),
          Nat.mul_comm]
        exact h
      · exact ih (Nat.mod_lt _ (tenTo_pos count)) c hc

/-- The decimal places of a fraction, filled up with the zeros that were left out, are its
numerator. -/
theorem ofDigitChars_fractionDigits {count rest : Nat} (h : rest < tenTo count) (whole : Nat) :
    Nat.ofDigitChars 10 (fractionDigits count rest) whole *
        tenTo (count - (fractionDigits count rest).length) =
      whole * tenTo count + rest := by
  induction count generalizing rest whole with
  | zero =>
    obtain rfl : rest = 0 := Nat.lt_one_iff.mp h
    simp [fractionDigits]
  | succ count ih =>
    rw [fractionDigits]
    split
    · next hzero => simp [hzero]
    · have hdigit : rest / tenTo count < 10 := by
        rw [Nat.div_lt_iff_lt_mul (tenTo_pos count), Nat.mul_comm]
        exact h
      rw [List.length_cons, Nat.add_sub_add_right, Nat.ofDigitChars_cons_digitChar_of_lt_ten hdigit,
        ih (Nat.mod_lt _ (tenTo_pos count)), tenTo_succ]
      calc (10 * whole + rest / tenTo count) * tenTo count + rest % tenTo count
          = whole * (tenTo count * 10) + (tenTo count * (rest / tenTo count) + rest % tenTo count) := by
            ring
        _ = whole * (tenTo count * 10) + rest := by rw [Nat.div_add_mod]

/-- Only of zero no places are written. -/
theorem fractionDigits_eq_nil_iff {count rest : Nat} (h : rest < tenTo count) :
    fractionDigits count rest = [] ↔ rest = 0 := by
  constructor
  · intro hnil
    cases count with
    | zero => exact Nat.lt_one_iff.mp h
    | succ count =>
      rw [fractionDigits] at hnil
      split at hnil
      · next hzero => exact hzero
      · exact absurd hnil (List.cons_ne_nil _ _)
  · rintro rfl
    exact fractionDigits_zero count

/-- No zero stands at the end of written places. -/
theorem getLast?_fractionDigits {count rest : Nat} (h : rest < tenTo count) :
    (fractionDigits count rest).getLast? ≠ some '0' := by
  induction count generalizing rest with
  | zero => simp [fractionDigits]
  | succ count ih =>
    have hlt := Nat.mod_lt rest (tenTo_pos count)
    rw [fractionDigits]
    split
    · simp
    · next hne =>
      by_cases htail : fractionDigits count (rest % tenTo count) = []
      · -- the digit is the last one
        have hrest := (fractionDigits_eq_nil_iff hlt).mp htail
        have hdiv : rest / tenTo count ≠ 0 := by
          intro hzero
          have := Nat.div_add_mod rest (tenTo count)
          rw [hzero, hrest] at this
          exact hne this.symm
        rw [htail, List.getLast?_singleton, Ne, Option.some_inj, Nat.digitChar_eq_zero]
        exact hdiv
      · rw [List.getLast?_cons_of_ne_nil htail]
        exact ih hlt

/-- Of all whole numbers only zero is written with a zero in front. -/
theorem toDigits_eq_of_head? (n : Nat) (h : (Nat.toDigits 10 n).head? = some '0') :
    Nat.toDigits 10 n = ['0'] := by
  induction n using Nat.strongRecOn with
  | ind n ih =>
    obtain hlt | hle := Nat.lt_or_ge n 10
    · rw [Nat.toDigits_of_lt_base hlt, List.head?_cons, Option.some_inj] at h
      rw [Nat.toDigits_of_lt_base hlt, h]
    · have hpos : 0 < n / 10 := Nat.div_pos hle (by decide)
      rw [Nat.toDigits_of_base_le (by decide) hle,
        List.head?_append_of_ne_nil _ Nat.toDigits_ne_nil] at h
      have hzero := ih (n / 10) (Nat.div_lt_self (hpos.trans_le (Nat.div_le_self n 10)) (by decide)) h
      have hvalue : Nat.ofDigitChars 10 (Nat.toDigits 10 (n / 10)) 0 = n / 10 :=
        Nat.ofDigitChars_ten_toDigits
      rw [hzero] at hvalue
      exact absurd hvalue hpos.ne

end Binary64

/-! ### Millionths -/

namespace CanonicalDecimal

open Binary64

theorem mod_lt_tenTo (n : Nat) : n % 1000000 < tenTo 6 := Nat.mod_lt n (by decide)

/-- The decimal of a number of millionths. -/
def ofMillionths (n : Nat) : CanonicalDecimal where
  whole := Nat.toDigits 10 (n / 1000000)
  places := fractionDigits 6 (n % 1000000)
  isDigit_whole _ hc := Nat.isDigit_of_mem_toDigits (by decide) (by decide) hc
  whole_ne_nil := Nat.toDigits_ne_nil
  whole_eq_of_head? := toDigits_eq_of_head? (n / 1000000)
  isDigit_places := isDigit_of_mem_fractionDigits (mod_lt_tenTo n)
  length_places_le := length_fractionDigits_le 6 (n % 1000000)
  getLast?_places := getLast?_fractionDigits (mod_lt_tenTo n)

/-- **Millionths are written as a canonical decimal.** -/
theorem chars_ofMillionths (n : Nat) : (ofMillionths n).chars = writeMillionths n :=
  if_congr (fractionDigits_eq_nil_iff (mod_lt_tenTo n)) rfl rfl

/-- **They are written exactly**: with the places that were left out, the digits are the number of
millionths. -/
theorem coefficient_ofMillionths (n : Nat) :
    (ofMillionths n).coefficient * tenTo (6 - (ofMillionths n).places.length) = n := by
  rw [coefficient, ofMillionths, Nat.ofDigitChars_append, Nat.ofDigitChars_ten_toDigits,
    ofDigitChars_fractionDigits (mod_lt_tenTo n), Nat.mul_comm]
  exact Nat.div_add_mod n 1000000

end CanonicalDecimal

end Fluxion
