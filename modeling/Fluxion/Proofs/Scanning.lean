import Fluxion.Proofs.Binary64.Written
import Fluxion.Token.Scan

/-!
# What the scanner does with a character

For the scanner there are spaces, characters of numerals, and characters of words, which are all others.
What it does with a character depends on the class of the character and on whether a numeral is pending,
and `Pending.step_cases` says it once: a space ends the pending text, a character of a numeral continues
any pending text as a numeral, and a character of a word ends a pending numeral and continues other
pending text. `Pending.step_error_cases` says when a character is refused.
-/

namespace Fluxion

/-! ### Classes of characters -/

/-- A character that can stand in a word: no space, no digit and no point. -/
def IsWordChar (c : Char) : Prop := c ≠ ' ' ∧ c.isDigit = false ∧ c ≠ '.'

namespace Token

variable {c : Char}

/-- A character of a numeral. -/
def IsNumeralChar (c : Char) : Prop := c.isDigit = true ∨ c = '.'

/-- There are eleven characters of numerals, so what they have in common can be checked. -/
theorem IsNumeralChar.of_all {p : Char → Bool}
    (hall : ['.', '0', '1', '2', '3', '4', '5', '6', '7', '8', '9'].all p = true)
    (h : IsNumeralChar c) : p c = true := by
  refine List.all_eq_true.mp hall c ?_
  rcases h with h | rfl
  · exact List.mem_cons_of_mem _ (mem_digits_of_isDigit h)
  · exact List.mem_cons_self

theorem IsNumeralChar.ne_space (h : IsNumeralChar c) : c ≠ ' ' := by
  simpa using h.of_all (p := (· ≠ ' ')) (by decide)

theorem IsNumeralChar.isAlpha_eq_false (h : IsNumeralChar c) : c.isAlpha = false := by
  simpa using h.of_all (p := fun c => !c.isAlpha) (by decide)

theorem IsNumeralChar.utf8Size_eq (h : IsNumeralChar c) : c.utf8Size = 1 := by
  simpa using h.of_all (p := fun c => c.utf8Size = 1) (by decide)

end Token

theorem IsWordChar.not_isNumeralChar {c : Char} (h : IsWordChar c) : ¬ Token.IsNumeralChar c := by
  rintro (hdigit | rfl)
  · exact absurd (h.2.1.symm.trans hdigit) Bool.false_ne_true
  · exact h.2.2 rfl

/-! ### Steps -/

namespace Pending

variable {pending pending' : Pending} {offset : Nat} {c : Char} {done : List Token}
  {cause : ScanError}

/-- Pending text that is refused where it ends is a word, or a numeral for no finite number. -/
theorem finish_error_cases (h : pending.finish offset = .error cause) :
    (∃ start text, pending = .word start text ∧
      cause = .unknownWord (String.ofList text) ⟨start, offset⟩) ∨
    ∃ start text, pending = .numeral start text ∧
      cause = .badNumeral (String.ofList text) ⟨start, offset⟩ := by
  cases pending with
  | nothing => cases h
  | word start text =>
    cases h
    exact .inl ⟨start, text, rfl, rfl⟩
  | numeral start text =>
    rw [finish] at h
    split at h
    · cases h
    · cases h
      exact .inr ⟨start, text, rfl, rfl⟩

/-- A character makes pending text a keyword, or continues it as a word. -/
theorem extendWord_cases (h : pending.extendWord offset c = (done, pending')) :
    (∃ kind, keyword? (pending.text ++ [c]) = some kind ∧ pending' = .nothing ∧
      done = [⟨kind, String.ofList (pending.text ++ [c]),
        ⟨pending.start offset, offset + c.utf8Size⟩⟩]) ∨
    (keyword? (pending.text ++ [c]) = none ∧ done = [] ∧
      pending' = .word (pending.start offset) (pending.text ++ [c])) := by
  rw [extendWord] at h
  split at h
  · next kind hkeyword =>
    cases h
    exact .inl ⟨kind, hkeyword, rfl, rfl⟩
  · next hkeyword =>
    cases h
    exact .inr ⟨hkeyword, rfl, rfl⟩

/-- A space ends the pending text. -/
theorem step_space (pending : Pending) (offset : Nat) :
    pending.step offset ' ' = (pending.finish offset).map (·, .nothing) := by
  unfold step
  rw [if_pos rfl]
  cases pending.finish offset <;> rfl

/-- A character of a word continues pending text that is no numeral. -/
theorem step_word (hc : IsWordChar c) (hp : ∀ start text, pending ≠ .numeral start text) :
    pending.step offset c = .ok (pending.extendWord offset c) := by
  obtain ⟨hspace, hdigit, hpoint⟩ := hc
  cases pending with
  | numeral start text => exact absurd rfl (hp start text)
  | nothing | word => simp [step, hspace, hdigit, hpoint]

/-- What the scanner does with a character that it accepts. -/
theorem step_cases (h : pending.step offset c = .ok (done, pending')) :
    (c = ' ' ∧ pending.finish offset = .ok done ∧ pending' = .nothing) ∨
    (Token.IsNumeralChar c ∧ (c.isDigit = true → pending.text.any Char.isAlpha = false) ∧
      done = [] ∧ pending' = .numeral (pending.start offset) (pending.text ++ [c])) ∨
    (IsWordChar c ∧ (∃ start text, pending = .numeral start text) ∧
      ∃ ended more, pending.finish offset = .ok ended ∧
        nothing.extendWord offset c = (more, pending') ∧ done = ended ++ more) ∨
    (IsWordChar c ∧ (∀ start text, pending ≠ .numeral start text) ∧
      pending.extendWord offset c = (done, pending')) := by
  unfold step at h
  split at h
  · next hspace =>
    obtain ⟨ended, hfinish, h⟩ := exists_ok_of_bind h
    cases h
    exact .inl ⟨hspace, hfinish, rfl⟩
  · next hspace =>
    right
    split at h
    · cases h
    · next hletter =>
      split at h
      · next hnumeral =>
        cases h
        refine .inl ⟨by simpa [Token.IsNumeralChar] using hnumeral, fun hdigit => ?_, rfl, rfl⟩
        simpa [hdigit] using hletter
      · next hnumeral =>
        have hword : IsWordChar c := by simpa [IsWordChar, hspace] using hnumeral
        right
        split at h
        · obtain ⟨ended, hfinish, h⟩ := exists_ok_of_bind h
          cases h
          exact .inl ⟨hword, ⟨_, _, rfl⟩, _, _, hfinish, rfl, rfl⟩
        · next hp => exact .inr ⟨hword, hp, Except.ok.inj h⟩

/-- The scanner refuses a character where the pending text would end and cannot, and a digit where it
holds a letter. -/
theorem step_error_cases (h : pending.step offset c = .error cause) :
    pending.finish offset = .error cause ∨
    (c.isDigit = true ∧ pending.text.any Char.isAlpha = true ∧
      cause = .digitInWord (String.ofList (pending.text ++ [c]))
        ⟨pending.start offset, offset + c.utf8Size⟩) := by
  unfold step at h
  split at h
  · obtain hfinish | ⟨ended, -, h⟩ := error_of_bind h
    · exact .inl hfinish
    · cases h
  · split at h
    · next hletter =>
      cases h
      rw [Bool.and_eq_true] at hletter
      exact .inr ⟨hletter.1, hletter.2, rfl⟩
    · split at h
      · cases h
      · split at h
        · obtain hfinish | ⟨ended, -, h⟩ := error_of_bind h
          · exact .inl hfinish
          · cases h
        · cases h

end Pending

/-! ### Scanning on -/

namespace Token

variable {pending pending' : Pending} {offset : Nat} {c : Char} {tokens : List Token}

theorem scanFrom_cons (h : pending.step offset c = .ok (tokens, pending')) (rest : List Char) :
    scanFrom pending offset (c :: rest) =
      (scanFrom pending' (offset + c.utf8Size) rest).map (tokens ++ ·) := by
  rw [scanFrom, h]
  rfl

theorem scanFrom_cons_error {cause : ScanError} (h : pending.step offset c = .error cause)
    (rest : List Char) : scanFrom pending offset (c :: rest) = .error cause := by
  rw [scanFrom, h]
  rfl

theorem map_nil_append (result : Except ScanError (List Token)) :
    result.map ([] ++ ·) = result := by
  cases result <;> rfl

theorem scanFrom_space (offset : Nat) (rest : List Char) :
    scanFrom .nothing offset (' ' :: rest) = scanFrom .nothing (offset + 1) rest := by
  have hstep : Pending.nothing.step offset ' ' = .ok ([], .nothing) := rfl
  rw [scanFrom_cons hstep, map_nil_append]
  rfl

end Token

end Fluxion
