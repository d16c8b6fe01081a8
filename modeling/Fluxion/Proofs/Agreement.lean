import Fluxion.Proofs.Readable

/-!
# What agreement says

Two formulas agree if they have the same shape, equal numbers and the same ranks. Numbers are compared by
their values, so the two zeros are equal, though one of them prints with a minus. Agreement therefore is
equality of the trees without the signs of their zeros, together with the ranks
(`Formula.agrees_iff`); and it is asked only of formulas in which every number has a value, as the
not-a-number agrees with nothing.

What is built alike on two formulas that agree can differ in the ranks alone, and the ranks see an
operand by three things: its own rank, whether it prints as `0`, and whether it prints as `1`
(`Formula.rank_binary_eq`). Zeros of different signs can differ in the last two
(`Formula.agrees_zeros`), so agreement alone is no congruence. It is one between formulas that agree on
printing as `0` and as `1`; and where no zero stands against a zero of the other sign, formulas that
agree are the same (`Formula.agrees_substitutive`).
-/

namespace Fluxion

/-! ### Numbers -/

namespace Binary64

/-- Whether the sign bit of a number is set. -/
def isNegative : Binary64 → Bool
  | .finite negative _ | .infinite negative => negative
  | .nan => false

/-- The number, but a zero without its sign. -/
def dropZeroSign : Binary64 → Binary64
  | .finite negative place => .finite (negative && place.val ≠ 0) place
  | value => value

/-- Numbers are equal by value if they are the same but for the sign of a zero. -/
theorem sameValue_iff {v w : Binary64} :
    v.sameValue w = true ↔ v ≠ nan ∧ v.dropZeroSign = w.dropZeroSign := by
  cases v with
  | finite s k =>
    cases w with
    | finite t l =>
      simp only [sameValue, dropZeroSign, finite.injEq, Bool.and_eq_true, decide_eq_true_eq,
        Bool.or_eq_true]
      constructor
      · rintro ⟨rfl, rfl | hzero⟩
        · simp
        · simp [hzero]
      · rintro ⟨-, hsign, rfl⟩
        refine ⟨rfl, or_iff_not_imp_right.mpr fun hzero => ?_⟩
        simpa [hzero] using hsign
    | infinite | nan => simp [sameValue, dropZeroSign]
  | infinite | nan => cases w <;> simp [sameValue, dropZeroSign]

theorem eq_of_dropZeroSign_eq {v w : Binary64} (h : v.dropZeroSign = w.dropZeroSign)
    (hsign : v.isNegative = w.isNegative) : v = w := by
  cases v <;> cases w <;> simp_all [dropZeroSign, isNegative]

theorem dropZeroSign_ofNat (n : Nat) : (ofNat n).dropZeroSign = ofNat n := by
  unfold ofNat nearest
  dsimp only
  split <;> simp [dropZeroSign]

theorem ofNat_ne_nan (n : Nat) : ofNat n ≠ nan := by
  unfold ofNat nearest
  dsimp only
  split <;> simp

theorem toList_ne_nil (v : Binary64) : v.toList ≠ [] := by
  cases v with
  | finite s k =>
    have hdigits : writeMillionths (millionths k) ≠ [] := by
      rw [writeMillionths]
      split <;> simp [Nat.toDigits_ne_nil]
    rw [toList]
    exact List.append_ne_nil_of_right_ne_nil _ hdigits
  | infinite | nan => simp [toList]

end Binary64

/-! ### Printing as a digit -/

/-- What is printed as one character is one symbol. -/
theorem Symbol.eq_singleton_of_flatMap {symbols : List Symbol} {c : Char}
    (hne : ∀ s ∈ symbols, s.spelling ≠ []) (h : symbols.flatMap spelling = [c]) :
    ∃ s, symbols = [s] ∧ s.spelling = [c] := by
  cases symbols with
  | nil => simp at h
  | cons s rest =>
    rw [List.flatMap_cons] at h
    obtain ⟨d, more, hs⟩ := List.exists_cons_of_ne_nil (hne s List.mem_cons_self)
    rw [hs, List.cons_append, List.cons.injEq, List.append_eq_nil_iff] at h
    obtain ⟨rfl, rfl, hrest⟩ := h
    cases rest with
    | nil => exact ⟨s, rfl, hs⟩
    | cons t rest =>
      rw [List.flatMap_cons, List.append_eq_nil_iff] at hrest
      exact absurd hrest.1 (hne t (by simp))

/-- Of all symbols only a numeral is written as a digit. -/
theorem Symbol.eq_numeral_of_spelling {s : Symbol} {c : Char} (hc : c.isDigit = true)
    (h : s.spelling = [c]) : s = .numeral [c] := by
  cases s with
  | numeral text => exact congrArg _ h
  | constant k =>
    cases k with
    | e =>
      cases h
      exact absurd hc (by decide)
    | pi => cases h
  | function f => cases f <;> cases h
  | operator op => cases h
  | var | minus | openBracket | closeBracket =>
    cases h
    exact absurd hc (by decide)

namespace Formula

variable {a b c : Formula}

theorem spelling_ne_nil {s : Symbol} (h : s ∈ a.printed.symbols) : s.spelling ≠ [] := by
  cases s with
  | numeral text =>
    exact of_numeral_mem_printed (P := (· ≠ [])) (by simp) (by simp)
      (fun v _ => v.toList_ne_nil) h
  | constant c => cases c <;> simp [Symbol.spelling, Constant.letters]
  | function f => cases f <;> simp [Symbol.spelling, NamedFunction.letters]
  | _ => simp [Symbol.spelling]

/-- To compare the symbols of a formula with one digit is to compare its text. -/
theorem symbols_eq_digit_iff {c : Char} (hc : c.isDigit = true) :
    a.printed.symbols = [.numeral [c]] ↔ a.text = String.ofList [c] := by
  rw [text, String.ofList_inj, Printed.toList]
  constructor
  · intro h
    rw [h]
    rfl
  · intro h
    obtain ⟨s, hs, hspelling⟩ := Symbol.eq_singleton_of_flatMap (fun _ => spelling_ne_nil) h
    rw [hs, Symbol.eq_numeral_of_spelling hc hspelling]

theorem isZero_iff_text : a.printed.isZero = true ↔ a.text = "0" :=
  a.printed.isZero_iff.trans (symbols_eq_digit_iff (by decide))

theorem isOne_iff_text : a.printed.isOne = true ↔ a.text = "1" :=
  a.printed.isOne_iff.trans (symbols_eq_digit_iff (by decide))

/-! ### Agreement -/

/-- All numbers in a formula have a value: none is the not-a-number. -/
def IsValued (a : Formula) : Prop := ∀ v ∈ a.numbers, v ≠ .nan

/-- The formula, but its zeros without their signs. -/
def dropZeroSigns : Formula → Formula
  | .number value => .number value.dropZeroSign
  | .var => .var
  | .constant c => .constant c
  | .binary op a b => .binary op a.dropZeroSigns b.dropZeroSigns
  | .apply f a => .apply f a.dropZeroSigns

theorem size_dropZeroSigns (a : Formula) : a.dropZeroSigns.size = a.size := by
  induction a with
  | number | var | constant => rfl
  | binary op a b iha ihb => simp only [dropZeroSigns, size, iha, ihb]
  | apply f a ih => simp only [dropZeroSigns, size, ih]

theorem numbers_dropZeroSigns (a : Formula) :
    a.dropZeroSigns.numbers = a.numbers.map Binary64.dropZeroSign := by
  induction a with
  | number | var | constant => rfl
  | binary op a b iha ihb => simp only [dropZeroSigns, numbers, iha, ihb, List.map_append]
  | apply f a ih => simp only [dropZeroSigns, numbers, ih]

theorem isValued_binary (op : Operator) : (binary op a b).IsValued ↔ a.IsValued ∧ b.IsValued := by
  simp only [IsValued, numbers, List.mem_append, or_imp, forall_and]

theorem length_ranks (a : Formula) : a.ranks.length = a.size := by
  rw [ranks_eq, List.length_map, length_postorder]

theorem ranks_binary (op : Operator) (a b : Formula) :
    (binary op a b).ranks = a.ranks ++ b.ranks ++ [(binary op a b).rank] := by
  simp only [ranks_eq, postorder, List.map_append, List.map_cons, List.map_nil]

theorem ranks_apply (f : NamedFunction) (a : Formula) :
    (apply f a).ranks = a.ranks ++ [.function] := by
  have hrank : (apply f a).rank = .function := by
    rw [rank, printed, Printed.apply]
    split <;> rfl
  simp only [ranks_eq, postorder, List.map_append, List.map_cons, List.map_nil, hrank]

/-- **Formulas agree if they are the same but for the signs of zeros, have no number without a value, and
have the same ranks.** -/
theorem agrees_iff : a.agrees b = true ↔
    a.IsValued ∧ a.dropZeroSigns = b.dropZeroSigns ∧ a.ranks = b.ranks := by
  induction a generalizing b with
  | number v =>
    cases b with
    | number w =>
      have hranks : (number v).ranks = (number w).ranks := rfl
      simp [agrees, Binary64.sameValue_iff, IsValued, numbers, dropZeroSigns, hranks]
    | _ => simp [agrees, dropZeroSigns]
  | var =>
    cases b with
    | var => simp [agrees, IsValued, numbers]
    | _ => simp [agrees, dropZeroSigns]
  | constant k =>
    cases b with
    | constant l =>
      have hranks : (constant k).ranks = (constant l).ranks := rfl
      simp [agrees, IsValued, numbers, dropZeroSigns, hranks]
    | _ => simp [agrees, dropZeroSigns]
  | binary op a a' iha iha' =>
    cases b with
    | binary op' b b' =>
      simp only [agrees, Bool.and_eq_true, decide_eq_true_eq, iha, iha', isValued_binary,
        dropZeroSigns, binary.injEq, ranks_binary]
      constructor
      · rintro ⟨⟨⟨rfl, ha, hab, hr⟩, ha', hab', hr'⟩, hroot⟩
        exact ⟨⟨ha, ha'⟩, ⟨rfl, hab, hab'⟩, by rw [hr, hr', hroot]⟩
      · rintro ⟨⟨ha, ha'⟩, ⟨rfl, hab, hab'⟩, hranks⟩
        -- formulas with the same nodes have as many ranks
        have hlength : a.ranks.length = b.ranks.length := by
          rw [length_ranks, length_ranks, ← size_dropZeroSigns, hab, size_dropZeroSigns]
        obtain ⟨hchildren, hroot⟩ := List.append_inj' hranks rfl
        obtain ⟨hr, hr'⟩ := List.append_inj hchildren hlength
        exact ⟨⟨⟨rfl, ha, hab, hr⟩, ha', hab', hr'⟩, (List.cons.inj hroot).1⟩
    | _ => simp [agrees, dropZeroSigns]
  | apply f a ih =>
    cases b with
    | apply g b =>
      simp only [agrees, Bool.and_eq_true, decide_eq_true_eq, ih, dropZeroSigns, apply.injEq,
        ranks_apply, List.append_left_inj, and_assoc]
      simp only [IsValued, numbers]
      tauto
    | _ => simp [agrees, dropZeroSigns]

theorem agrees_self_iff : a.agrees a = true ↔ a.IsValued :=
  agrees_iff.trans (and_iff_left ⟨rfl, rfl⟩)

theorem isValued_of_agrees (h : a.agrees b = true) : a.IsValued := (agrees_iff.mp h).1

/-- Formulas that are the same but for the signs of zeros are the same if the signs are. -/
theorem eq_of_dropZeroSigns_eq (h : a.dropZeroSigns = b.dropZeroSigns)
    (hsigns : a.numbers.map Binary64.isNegative = b.numbers.map Binary64.isNegative) : a = b := by
  induction a generalizing b with
  | number v =>
    cases b with
    | number w =>
      simp only [dropZeroSigns, number.injEq, numbers, List.map_cons, List.map_nil,
        List.cons.injEq, and_true] at h hsigns
      rw [Binary64.eq_of_dropZeroSign_eq h hsigns]
    | _ => cases h
  | var => cases b <;> first | rfl | cases h
  | constant k =>
    cases b with
    | constant l => exact h
    | _ => cases h
  | binary op a a' iha iha' =>
    cases b with
    | binary op' b b' =>
      simp only [dropZeroSigns, binary.injEq, numbers, List.map_append] at h hsigns
      obtain ⟨rfl, hab, hab'⟩ := h
      have hlength := congrArg (fun c : Formula => c.numbers.length) hab
      simp only [numbers_dropZeroSigns, List.length_map] at hlength
      obtain ⟨hs, hs'⟩ := List.append_inj hsigns (by simpa using hlength)
      rw [iha hab hs, iha' hab' hs']
    | _ => cases h
  | apply f a ih =>
    cases b with
    | apply g b =>
      simp only [dropZeroSigns, apply.injEq, numbers] at h hsigns
      rw [h.1, ih h.2 hsigns]
    | _ => cases h

/-! ### Building on formulas that agree -/

theorem agrees_apply (f : NamedFunction) (h : a.agrees b = true) :
    (apply f a).agrees (apply f b) = true := by
  simp [agrees, h]

/-- What an operator makes of formulas that agree can differ in the rank of the new node alone. -/
theorem agrees_binary_iff (op : Operator) {a' b' : Formula} (h : a.agrees b = true)
    (h' : a'.agrees b' = true) :
    (binary op a a').agrees (binary op b b') = true ↔
      (binary op a a').rank = (binary op b b').rank := by
  simp [agrees, h, h']

/-- The rank of a new node depends on the ranks of its operands, and on whether they print as zero or as
one. -/
theorem rank_binary_eq (op : Operator) {a' b' : Formula} (ha : a.rank = b.rank)
    (hzero : a.printed.isZero = b.printed.isZero) (hone : a.printed.isOne = b.printed.isOne)
    (ha' : a'.rank = b'.rank) (hzero' : a'.printed.isZero = b'.printed.isZero)
    (hone' : a'.printed.isOne = b'.printed.isOne) :
    (binary op a a').rank = (binary op b b').rank := by
  simp only [rank] at ha ha'
  cases op with
  | add =>
    simp only [rank, printed, Printed.binary, Printed.add, hzero, hzero']
    split_ifs <;> rfl
  | sub =>
    simp only [rank, printed, Printed.binary, Printed.sub, hzero, hzero']
    split_ifs <;> rfl
  | mul =>
    simp only [rank, printed, Printed.binary, Printed.mul, hzero, hzero', hone, hone']
    split_ifs
    · rfl
    · exact ha'
    · exact ha
    · rfl
  | div =>
    simp only [rank, printed, Printed.binary, Printed.div]
    split_ifs <;> rfl
  | pow =>
    simp only [rank, printed, Printed.binary, Printed.pow]
    split_ifs <;> rfl

/-- What any operator makes of one formula and of the other, with a further operand on either side,
agrees. -/
def Interchangeable (a b : Formula) : Prop :=
  ∀ op c, c.IsValued → (binary op a c).agrees (binary op b c) = true ∧
    (binary op c a).agrees (binary op c b) = true

theorem rank_add_var (a : Formula) :
    (a + var).rank = if a.printed.isZero then .atom else .additive := by
  simp only [rank, printed, Printed.binary, Printed.add]
  split_ifs <;> rfl

theorem rank_mul_var (a : Formula) :
    (a * var).rank = if a.printed.isZero || a.printed.isOne then .atom else .multiplicative := by
  have hzero : (var : Formula).printed.isZero = false := rfl
  have hone : (var : Formula).printed.isOne = false := rfl
  simp only [rank, printed, Printed.binary, Printed.mul]
  cases a.printed.isZero <;> cases a.printed.isOne <;> rfl

/-- **Formulas that agree can be exchanged under every operator if they agree on printing as `0` and as
`1`**, and only then: a sum and a product with the variable tell all others apart. -/
theorem interchangeable_iff (h : a.agrees b = true) : Interchangeable a b ↔
    (a.text = "0" ↔ b.text = "0") ∧ (a.text = "1" ↔ b.text = "1") := by
  simp only [← isZero_iff_text, ← isOne_iff_text, ← Bool.eq_iff_iff]
  have hrank := rank_eq_of_agrees h
  constructor
  · intro hall
    have hvar : (var : Formula).IsValued := nofun
    have hsum := rank_eq_of_agrees (hall .add var hvar).1
    have hproduct := rank_eq_of_agrees (hall .mul var hvar).1
    rw [← add_def, ← add_def, rank_add_var, rank_add_var] at hsum
    rw [← mul_def, ← mul_def, rank_mul_var, rank_mul_var] at hproduct
    have hzero : a.printed.isZero = b.printed.isZero := by
      split_ifs at hsum <;> simp_all
    refine ⟨hzero, ?_⟩
    cases hz : b.printed.isZero with
    | true => rw [Printed.isOne_of_isZero hz, Printed.isOne_of_isZero (hzero.trans hz)]
    | false =>
      rw [hzero, hz, Bool.false_or, Bool.false_or] at hproduct
      split_ifs at hproduct <;> simp_all
  · rintro ⟨hzero, hone⟩ op c hc
    have hself := agrees_self_iff.mpr hc
    exact ⟨(agrees_binary_iff op h hself).mpr (rank_binary_eq op hrank hzero hone rfl rfl rfl),
      (agrees_binary_iff op hself h).mpr (rank_binary_eq op rfl rfl rfl hrank hzero hone)⟩

/-! ### Derivatives -/

theorem dropZeroSigns_operatorRule (op : Operator) (a b a' b' : Formula) :
    (operatorRule op a b a' b').dropZeroSigns =
      operatorRule op a.dropZeroSigns b.dropZeroSigns a'.dropZeroSigns b'.dropZeroSigns := by
  cases op <;>
    simp only [operatorRule, add_def, sub_def, mul_def, div_def, pow_def, ofNat_def, dropZeroSigns,
      Binary64.dropZeroSign_ofNat]

theorem dropZeroSigns_chainRule (f : NamedFunction) (a a' : Formula) :
    (chainRule f a a').dropZeroSigns = chainRule f a.dropZeroSigns a'.dropZeroSigns := by
  cases f <;>
    simp only [chainRule, neg_def, sub_def, mul_def, div_def, pow_def, ofNat_def, dropZeroSigns,
      Binary64.dropZeroSign_ofNat]

/-- The rules do not look at the signs of zeros. -/
theorem dropZeroSigns_derivative (a : Formula) :
    a.derivative.dropZeroSigns = a.dropZeroSigns.derivative := by
  induction a with
  | number | var | constant =>
    simp only [derivative, dropZeroSigns, ofNat_def, Binary64.dropZeroSign_ofNat]
  | binary op a b iha ihb => rw [derivative, dropZeroSigns_operatorRule, iha, ihb]; rfl
  | apply f a ih => rw [derivative, dropZeroSigns_chainRule, ih]; rfl

theorem IsValued.derivative (h : a.IsValued) : a.derivative.IsValued := by
  intro v hv
  rcases List.mem_append.mp (numbers_derivative a hv) with hv | hv
  · exact h v hv
  · obtain ⟨n, -, rfl⟩ := Binary64.exists_ofNat_of_mem_ruleNumbers hv
    exact Binary64.ofNat_ne_nan n

/-- The derivatives of formulas that agree can differ in their ranks alone. -/
theorem agrees_derivative_iff (h : a.agrees b = true) :
    a.derivative.agrees b.derivative = true ↔ a.derivative.ranks = b.derivative.ranks := by
  obtain ⟨hvalued, hdrop, -⟩ := agrees_iff.mp h
  have hdrop' : a.derivative.dropZeroSigns = b.derivative.dropZeroSigns := by
    rw [dropZeroSigns_derivative, dropZeroSigns_derivative, hdrop]
  rw [agrees_iff]
  exact ⟨fun h => h.2.2, fun h => ⟨hvalued.derivative, hdrop', h⟩⟩

/-! ### Substitution -/

/-- **How far formulas that agree can stand for each other.** They have the same rank, and so do the
functions of them. Operators make formulas of them that agree if and only if both or neither print as `0`,
and likewise as `1`; their derivatives agree if and only if the ranks do. If no zero in one has
the other sign than the zero in its place in the other, then their texts are the same, their derivatives
agree, and so does what operators make of them. -/
theorem agrees_substitutive (h : a.agrees b = true) :
    a.rank = b.rank ∧
      (∀ f, (apply f a).agrees (apply f b) = true) ∧
      (Interchangeable a b ↔ (a.text = "0" ↔ b.text = "0") ∧ (a.text = "1" ↔ b.text = "1")) ∧
      (a.derivative.agrees b.derivative = true ↔ a.derivative.ranks = b.derivative.ranks) ∧
      (a.numbers.map Binary64.isNegative = b.numbers.map Binary64.isNegative →
        a.text = b.text ∧ a.derivative.agrees b.derivative = true ∧ Interchangeable a b) := by
  refine ⟨rank_eq_of_agrees h, fun f => agrees_apply f h, interchangeable_iff h,
    agrees_derivative_iff h, fun hsigns => ?_⟩
  obtain rfl := eq_of_dropZeroSigns_eq (agrees_iff.mp h).2.1 hsigns
  exact ⟨rfl, agrees_self_iff.mpr (isValued_of_agrees h).derivative,
    (interchangeable_iff h).mpr ⟨Iff.rfl, Iff.rfl⟩⟩

/-- The sines of the two zeros print differently, but neither as `0` nor as `1`. -/
theorem agrees_substitutive_sin :
    let zero : Formula := number (.finite false 0)
    let minusZero : Formula := number (.finite true 0)
    (apply .sin zero).agrees (apply .sin minusZero) = true ∧
      (apply .sin zero).text ≠ (apply .sin minusZero).text ∧
      Interchangeable (apply .sin zero) (apply .sin minusZero) ∧
      (minusZero / var).derivative.agrees (minusZero / var).derivative = true := by
  intro zero minusZero
  have h : (apply .sin zero).agrees (apply .sin minusZero) = true := by decide +kernel
  have hself : (minusZero / var).agrees (minusZero / var) = true := by decide +kernel
  exact ⟨h, by decide +kernel,
    (agrees_substitutive h).2.2.1.mpr (by decide +kernel),
    ((agrees_substitutive hself).2.2.2.2 rfl).2.1⟩

/-- **Agreement is no congruence**: the two zeros agree, but their texts differ, and neither do sums with
them agree, nor the derivatives of powers of them, though the powers do. -/
theorem agrees_zeros :
    let zero : Formula := number (.finite false 0)
    let minusZero : Formula := number (.finite true 0)
    zero.IsValued ∧ minusZero.IsValued ∧ zero.agrees minusZero = true ∧ zero.text ≠ minusZero.text ∧
      (zero + var).agrees (minusZero + var) = false ∧
      (zero ^ (var : Formula)).agrees (minusZero ^ (var : Formula)) = true ∧
      (zero ^ (var : Formula)).derivative.agrees (minusZero ^ (var : Formula)).derivative = false := by
  intro zero minusZero
  refine ⟨?_, ?_, ?_⟩
  · simp [IsValued, numbers, zero]
  · simp [IsValued, numbers, minusZero]
  · decide +kernel

end Formula

end Fluxion
