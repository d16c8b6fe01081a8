import Fluxion.Proofs.Numbers
import Fluxion.Proofs.Phrase

/-!
# Printed formulas can be read

Whatever the printer leaves out, numbers, brackets or whole operands, what remains is put together
from a few pieces in a few ways (`Printed.Closed`), and each of these ways makes a phrase out of
phrases (`Phrase.closed_existsFor`). So a printed formula can always be read again, as long as its
numbers are finite (`Formula.IsFinite.exists_ofText_text`); the sign of a number is then read as a
minus in front of it. Which formula is read is another question: where brackets are missing it need
not be the printed one.
-/

namespace Fluxion

/-! ### What printing puts together -/

/-- A property of printed symbols that holds of the numbers zero and one, and that is kept by each
of the ways in which the printer puts symbols together. -/
structure Printed.Closed (P : List Symbol → Prop) : Prop where
  zero : P [.numeral ['0']]
  one : P [.numeral ['1']]
  minus {s : List Symbol} : P s → P (.minus :: s)
  brackets {s : List Symbol} : P s → P (.openBracket :: s ++ [.closeBracket])
  function {f : NamedFunction} {s : List Symbol} : P s →
    P (.function f :: .openBracket :: s ++ [.closeBracket])
  joined {op : Operator} {s t : List Symbol} : P s → P t → P (s ++ .operator op :: t)

theorem Printed.eq_zero_or_one_of_knownValue? {f : NamedFunction} {a value : Printed}
    (h : knownValue? f a = some value) : value = zero ∨ value = one := by
  unfold knownValue? at h
  split at h <;> cases h <;> simp

namespace Printed.Closed

variable {P : List Symbol → Prop} {a b : Printed}

theorem between (hP : Closed P) (low high : Rank) (ha : P a.symbols) : P (a.between low high) := by
  unfold Printed.between
  split
  · exact hP.brackets ha
  · exact ha

theorem binary (hP : Closed P) (op : Operator) (ha : P a.symbols) (hb : P b.symbols) :
    P (Printed.binary op a b).symbols := by
  cases op with
  | add =>
    simp only [Printed.binary, add]
    split_ifs
    · exact hb
    · exact ha
    · exact hP.joined ha hb
  | sub =>
    simp only [Printed.binary, sub]
    split_ifs
    · exact hb
    · exact hP.minus hb
    · exact ha
    · exact hP.joined ha (hP.between _ _ hb)
  | mul =>
    simp only [Printed.binary, mul]
    split_ifs
    · exact hP.zero
    · exact hb
    · exact ha
    · exact hP.joined (hP.between _ _ ha) (hP.between _ _ hb)
  | div =>
    simp only [Printed.binary, div]
    split_ifs
    · exact ha
    · exact hP.joined (hP.between _ _ ha) (hP.between _ _ hb)
  | pow =>
    simp only [Printed.binary, pow]
    split_ifs
    · exact ha
    · exact hP.one
    · exact ha
    · exact hP.joined (hP.between _ _ ha) (hP.between _ _ hb)

theorem apply (hP : Closed P) (f : NamedFunction) (ha : P a.symbols) :
    P (Printed.apply f a).symbols := by
  unfold Printed.apply
  split
  · next value hvalue =>
    obtain rfl | rfl := eq_zero_or_one_of_knownValue? hvalue
    · exact hP.zero
    · exact hP.one
  · exact hP.function ha

/-- What holds of the leaves of a formula holds of the whole. -/
theorem printed (hP : Closed P) (hvar : P [.var]) (hconstant : ∀ c, P [.constant c]) {a : Formula}
    (hnumber : ∀ v ∈ a.numbers, P [.numeral v.toList]) : P a.printed.symbols := by
  induction a with
  | number v => exact hnumber v (List.mem_singleton_self v)
  | var => exact hvar
  | constant c => exact hconstant c
  | binary op a b iha ihb =>
    simp only [Formula.numbers, List.mem_append] at hnumber
    exact hP.binary op (iha fun v hv => hnumber v (.inl hv)) (ihb fun v hv => hnumber v (.inr hv))
  | apply f a ih => exact hP.apply f (ih hnumber)

end Printed.Closed

/-! ### Numerals of printed formulas -/

/-- What holds of the characters of zero, of one and of a formula's own numbers holds of every numeral
that it prints. -/
theorem Formula.of_numeral_mem_printed {P : List Char → Prop} {a : Formula} (hzero : P ['0'])
    (hone : P ['1']) (hnumber : ∀ v ∈ a.numbers, P v.toList) {text : List Char}
    (hmem : .numeral text ∈ a.printed.symbols) : P text := by
  have closed : Printed.Closed fun symbols => .numeral text ∈ symbols → P text :=
    { zero := fun h => by
        obtain rfl : text = ['0'] := by simpa using h
        exact hzero
      one := fun h => by
        obtain rfl : text = ['1'] := by simpa using h
        exact hone
      minus := fun ih h => ih (by simpa using h)
      brackets := fun ih h => ih (by simpa using h)
      function := fun ih h => ih (by simpa using h)
      joined := fun ihs iht h => by
        simp only [List.mem_append, List.mem_cons, reduceCtorEq, false_or] at h
        exact h.elim ihs iht }
  refine closed.printed nofun (fun _ => nofun) (fun v hv ht => ?_) hmem
  obtain rfl : text = _ := by simpa using ht
  exact hnumber v hv

theorem Formula.isNumeral_of_mem_printed {a : Formula} (h : a.IsUnsigned) {text : List Char}
    (hmem : .numeral text ∈ a.printed.symbols) : Token.IsNumeral text :=
  of_numeral_mem_printed (Token.isNumeral_toDigits (n := 0) (by decide))
    (Token.isNumeral_toDigits (n := 1) (by decide)) (fun v hv => Token.isNumeral_toList (h v hv)) hmem

/-! ### Reading again -/

theorem Spells.token_numeral {text : List Char} {v : Binary64}
    (h : Binary64.ofList? text = some v) : Spells 4 [Symbol.token (.numeral text)] (.number v) :=
  .numeral rfl (by simpa [Symbol.token, Symbol.spelling, Binary64.ofText?] using h)

theorem Spells.token_toDigits (n : Nat) :
    Spells 1 [Symbol.token (.numeral (Nat.toDigits 10 n))] (.number (.ofNat n)) :=
  (token_numeral (Binary64.ofList?_toDigits n)).lower (by decide)

/-- Some phrase is spelled like the symbols, letter for letter. -/
def Phrase.ExistsFor (symbols : List Symbol) : Prop :=
  ∃ p : Phrase, p.IsGrouped ∧ p.symbols.flatMap Symbol.spelling = symbols.flatMap Symbol.spelling

/-- What is put together from phrases is a phrase. -/
theorem Phrase.closed_existsFor : Printed.Closed Phrase.ExistsFor where
  zero := ⟨.numeral ['0'], Token.isNumeral_toDigits (n := 0) (by decide), rfl⟩
  one := ⟨.numeral ['1'], Token.isNumeral_toDigits (n := 1) (by decide), rfl⟩
  minus := fun ⟨p, hp, heq⟩ => ⟨p.negate, hp.negate, by
    rw [symbols_negate, List.flatMap_cons, List.flatMap_cons, heq]⟩
  brackets := fun ⟨p, hp, heq⟩ => ⟨.brackets p, hp, by
    simp only [symbols, List.flatMap_append, List.flatMap_cons, heq]⟩
  function := fun {f} _ ⟨p, hp, heq⟩ => ⟨.function f (.brackets p), ⟨rfl, hp⟩, by
    simp only [symbols, List.flatMap_append, List.flatMap_cons, heq, List.cons_append]⟩
  joined := fun {op} _ _ ⟨p, hp, heqp⟩ ⟨q, hq, heqq⟩ => ⟨.append p op q, hp.append hq, by
    simp only [symbols_append, List.flatMap_append, List.flatMap_cons, heqp, heqq]⟩

theorem Phrase.existsFor_numeral {text : List Char} (h : Token.IsNumeral text) :
    ExistsFor [.numeral text] := ⟨.numeral text, h, rfl⟩

/-- The sign of a number is read as a minus in front. -/
theorem Phrase.existsFor_negative {text : List Char} (h : Token.IsNumeral text) :
    ExistsFor [.numeral ('-' :: text)] := ⟨.minus (.numeral text), ⟨rfl, h⟩, rfl⟩

theorem Phrase.existsFor_toList {v : Binary64} (h : v.isFinite = true) :
    ExistsFor [.numeral v.toList] := by
  cases v with
  | finite negative place =>
    have hnumeral : Token.IsNumeral (Binary64.finite false place).toList :=
      Token.isNumeral_toList ⟨place, rfl⟩
    cases negative with
    | false => exact existsFor_numeral hnumeral
    | true =>
      rw [Binary64.toList_negative]
      exact existsFor_negative hnumeral
  | infinite | nan => exact absurd h Bool.false_ne_true

namespace Formula

/-- All numbers in a formula are finite. -/
def IsFinite (a : Formula) : Prop := ∀ v ∈ a.numbers, v.isFinite = true

theorem IsUnsigned.isFinite {a : Formula} (h : a.IsUnsigned) : a.IsFinite := by
  intro v hv
  obtain ⟨place, rfl⟩ := h v hv
  rfl

/-- **Every printed formula can be read**, if its numbers are finite. -/
theorem IsFinite.exists_ofText_text {a : Formula} (h : a.IsFinite) :
    ∃ b, ofText a.text = .ok b := by
  have hvar : Phrase.ExistsFor [.var] := ⟨.var, trivial, rfl⟩
  have hconstant c : Phrase.ExistsFor [.constant c] := ⟨.constant c, trivial, rfl⟩
  obtain ⟨p, hp, heq⟩ := Phrase.closed_existsFor.printed hvar hconstant fun v hv =>
    Phrase.existsFor_toList (h v hv)
  refine ⟨p.formula, ?_⟩
  rw [text, Printed.toList, ← heq]
  exact hp.ofText_eq

theorem exists_ofText_text {a : Formula} (h : a.IsUnsigned) : ∃ b, ofText a.text = .ok b :=
  h.isFinite.exists_ofText_text

/-- A text without characters spells nothing. -/
theorem text_ne_empty_of_ofText {text : String} {a : Formula} (h : ofText text = .ok a) :
    text ≠ "" := by
  rintro rfl
  cases h

theorem IsUnsigned.nthDerivative {a : Formula} (h : a.IsUnsigned) (n : Nat) :
    (a.nthDerivative n).IsUnsigned := by
  induction n generalizing a with
  | zero => exact h
  | succ n ih => exact ih h.derivative

/-- **What is printed can be read again**: the text of a formula with finite numbers is not empty
and can be read; and the numbers in the derivatives of a formula that was read are finite and
without a sign, so each derivative prints as a text that can be read. -/
theorem printed_readable :
    (∀ a : Formula, a.IsFinite → a.text ≠ "" ∧ ∃ b, ofText a.text = .ok b) ∧
    ∀ (text : String) (a : Formula), ofText text = .ok a → ∀ n,
      (a.nthDerivative n).IsUnsigned ∧ ∃ b, ofText (a.nthDerivative n).text = .ok b := by
  refine ⟨fun a h => ?_, fun text a h n => ?_⟩
  · obtain ⟨b, hb⟩ := h.exists_ofText_text
    exact ⟨text_ne_empty_of_ofText hb, b, hb⟩
  · have hunsigned := (isUnsigned_of_ofText h).nthDerivative n
    exact ⟨hunsigned, exists_ofText_text hunsigned⟩

/-- A number with a sign on the right of a power, and the second derivative of a product. -/
theorem printed_readable_neg_one :
    let a : Formula := .binary .pow .var (.number (.finite true 0x3FF0000000000000))
    (a.IsFinite ∧ a.text ≠ "" ∧ ∃ b, ofText a.text = .ok b) ∧
    ofText "x*x" = .ok (.var * .var) ∧ ((.var * .var : Formula).nthDerivative 2).IsUnsigned ∧
      ∃ b, ofText ((.var * .var : Formula).nthDerivative 2).text = .ok b := by
  intro a
  have hfinite : a.IsFinite := by
    intro v hv
    obtain rfl := List.mem_singleton.mp hv
    rfl
  have hread : ofText "x*x" = .ok (.var * .var) := by rfl
  exact ⟨⟨hfinite, printed_readable.1 a hfinite⟩, hread, printed_readable.2 "x*x" _ hread 2⟩

end Formula

end Fluxion
