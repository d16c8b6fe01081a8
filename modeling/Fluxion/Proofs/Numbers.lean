import Fluxion.Formula.Derivative
import Fluxion.Proofs.Accepted
import Fluxion.Proofs.Binary64.Whole
import Fluxion.Proofs.Scanning

/-!
# The numbers in a formula

Numbers enter a formula in two ways: as numerals of the text that it was read from, and through the
rules of differentiation, which bring in the numbers 0, 1, 2 and 10. A numeral of a text is never
infinite and never has a sign, since a minus is a token of its own and the scanner refuses numerals
that overflow. So all numbers of a formula that was read are finite and without a sign
(`Formula.isUnsigned_of_ofText`), and so are those of its derivative (`Formula.IsUnsigned.derivative`).
-/

namespace Fluxion

/-! ### Numbers without a sign -/

namespace Binary64

/-- The numbers that the rules of differentiation bring in. -/
def ruleNumbers : List Binary64 := [0, 1, 2, 10].map ofNat

theorem exists_ofNat_of_mem_ruleNumbers {v : Binary64} (hv : v ∈ ruleNumbers) :
    ∃ n, n < 0x20000000000000 ∧ v = ofNat n := by
  have hall : ∀ n ∈ [0, 1, 2, 10], n < 0x20000000000000 := by decide
  obtain ⟨n, hn, rfl⟩ := List.mem_map.mp hv
  exact ⟨n, hall n hn, rfl⟩

theorem isUnsigned_of_mem_ruleNumbers {v : Binary64} (hv : v ∈ ruleNumbers) : v.IsUnsigned := by
  obtain ⟨n, hn, rfl⟩ := exists_ofNat_of_mem_ruleNumbers hv
  exact isUnsigned_ofNat hn

theorem printsBack_of_mem_ruleNumbers {v : Binary64} (hv : v ∈ ruleNumbers) :
    v.printsBack = true := by
  obtain ⟨n, hn, rfl⟩ := exists_ofNat_of_mem_ruleNumbers hv
  exact printsBack_ofNat hn

theorem isUnsigned_nearest {num den : Nat} (h : (nearest false num den).isFinite = true) :
    (nearest false num den).IsUnsigned := by
  rw [nearest] at h ⊢
  split
  · exact ⟨_, rfl⟩
  · next hlt =>
    rw [dif_neg hlt] at h
    exact absurd h (by decide)

/-- A numeral for a finite number that does not begin with a minus is without a sign. -/
theorem isUnsigned_of_ofList? {text : List Char} (hsign : text.head? ≠ some '-')
    (h : (ofList? text).any isFinite = true) : ∃ v, ofList? text = some v ∧ v.IsUnsigned := by
  have hsplit : (Decimal.splitSign text).1 = false := by
    unfold Decimal.splitSign
    split
    · exact absurd rfl hsign
    · rfl
    · rfl
  unfold ofList? at h ⊢
  simp only [hsplit] at h ⊢
  split at h
  · exact absurd h (by decide)
  · split at h
    · exact absurd h (by decide)
    · next hi hn =>
      rw [if_neg hi, if_neg hn]
      cases hd : Decimal.ofList? (Decimal.splitSign text).2 with
      | none =>
        rw [hd] at h
        exact absurd h (by decide)
      | some d =>
        rw [hd] at h
        refine ⟨_, rfl, ?_⟩
        unfold Decimal.toBinary64 at h ⊢
        simp only [Option.map_some, Option.any_some] at h
        split at h
        · exact isUnsigned_nearest h
        · exact isUnsigned_nearest h

end Binary64

/-! ### Numbers of formulas -/

namespace Formula

/-- The numbers in a formula, from left to right. -/
def numbers : Formula → List Binary64
  | .number value => [value]
  | .var | .constant _ => []
  | .binary _ a b => a.numbers ++ b.numbers
  | .apply _ a => a.numbers

/-- All numbers in a formula are finite and without a sign. -/
def IsUnsigned (a : Formula) : Prop := ∀ v ∈ a.numbers, v.IsUnsigned

theorem numbers_operatorRule (op : Operator) (a b a' b' : Formula) :
    (operatorRule op a b a' b').numbers ⊆
      a.numbers ++ b.numbers ++ a'.numbers ++ b'.numbers ++ Binary64.ruleNumbers := by
  intro v hv
  simp only [List.mem_append, Binary64.ruleNumbers, List.map_cons, List.mem_cons]
  cases op <;>
    simp only [operatorRule, add_def, sub_def, mul_def, div_def, pow_def, ofNat_def, numbers,
      List.mem_append, List.mem_cons, List.not_mem_nil, or_false] at hv <;>
    grind

theorem numbers_chainRule (f : NamedFunction) (a a' : Formula) :
    (chainRule f a a').numbers ⊆ a.numbers ++ a'.numbers ++ Binary64.ruleNumbers := by
  intro v hv
  simp only [List.mem_append, Binary64.ruleNumbers, List.map_cons, List.mem_cons]
  cases f <;>
    simp only [chainRule, neg_def, sub_def, mul_def, div_def, pow_def, ofNat_def, numbers,
      List.mem_append, List.mem_cons, List.not_mem_nil, or_false] at hv <;>
    grind

/-- The numbers in a derivative are those of the formula, and those of the rules. -/
theorem numbers_derivative (a : Formula) :
    a.derivative.numbers ⊆ a.numbers ++ Binary64.ruleNumbers := by
  induction a with
  | number | constant | var => simp [derivative, Binary64.ruleNumbers, numbers, ofNat_def]
  | binary op a b iha ihb =>
    intro v hv
    have := numbers_operatorRule op a b a.derivative b.derivative hv
    have ha := @iha v
    have hb := @ihb v
    simp only [numbers, List.mem_append] at *
    tauto
  | apply f a ih =>
    intro v hv
    have := numbers_chainRule f a a.derivative hv
    have ha := @ih v
    simp only [numbers, List.mem_append] at *
    tauto

theorem IsUnsigned.derivative {a : Formula} (h : a.IsUnsigned) : a.derivative.IsUnsigned := by
  intro v hv
  rcases List.mem_append.mp (numbers_derivative a hv) with hv | hv
  · exact h v hv
  · exact Binary64.isUnsigned_of_mem_ruleNumbers hv

end Formula

/-! ### Numbers of what is read -/

/-- A number that tokens can bring into a formula: the value of a numeral, or the zero of a
negation. -/
def Binary64.SpelledBy (tokens : List Token) (v : Binary64) : Prop :=
  v = .ofNat 0 ∨ ∃ token ∈ tokens, token.kind = .numeral ∧ ofText? token.text = some v

theorem Binary64.SpelledBy.mono {tokens tokens' : List Token} {v : Binary64}
    (h : v.SpelledBy tokens) (hsub : tokens ⊆ tokens') : v.SpelledBy tokens' :=
  h.imp_right fun ⟨token, ht, hread⟩ => ⟨token, hsub ht, hread⟩

theorem Spells.spelledBy {p : Int} {tokens : List Token} {a : Formula} (h : Spells p tokens a) :
    ∀ v ∈ a.numbers, v.SpelledBy tokens := by
  induction h with
  | numeral hk hv =>
    intro v h
    obtain rfl := List.mem_singleton.mp h
    exact .inr ⟨_, List.mem_singleton_self _, hk, hv⟩
  | var | constant => simp [Formula.numbers]
  | brackets _ _ _ ih => exact fun v hv => (ih v hv).mono (by simp)
  | minus _ _ ih =>
    intro v hv
    obtain rfl | hv := List.mem_cons.mp hv
    · exact .inl rfl
    · exact (ih v hv).mono (by simp)
  | function _ _ ih => exact fun v hv => (ih v hv).mono (by simp)
  | infixed _ _ _ iha ihb =>
    intro v hv
    obtain hv | hv := List.mem_append.mp hv
    · exact (iha v hv).mono (by simp)
    · exact (ihb v hv).mono (by simp)
  | lift _ ih => exact ih

/-! ### Numbers of what is scanned -/

theorem mem_keywords_of_keyword? {text : List Char} {kind : Token.Kind}
    (h : keyword? text = some kind) : (text, kind) ∈ keywords := by
  obtain ⟨before, after, heq, -⟩ := List.lookup_eq_some_iff.mp h
  rw [heq]
  simp

namespace Token

/-- What holds of each token that the scanner makes: it does not end the input, and a numeral spells
a finite number without a sign. -/
structure IsScanned (token : Token) : Prop where
  kind_ne_endOfInput : token.kind ≠ .endOfInput
  isUnsigned : token.kind = .numeral →
    ∃ v, Binary64.ofText? token.text = some v ∧ v.IsUnsigned

theorem isScanned_of_keyword {text : List Char} {kind : Kind} (h : keyword? text = some kind)
    (span : Span) : IsScanned ⟨kind, String.ofList text, span⟩ := by
  have hall : ∀ entry ∈ keywords, entry.2 ≠ .endOfInput ∧ entry.2 ≠ .numeral := by decide
  obtain ⟨hend, hnumeral⟩ := hall _ (mem_keywords_of_keyword? h)
  exact ⟨hend, fun hk => absurd hk hnumeral⟩

end Token

namespace Pending

variable {pending pending' : Pending} {offset : Nat} {c : Char} {tokens : List Token}

/-- Pending text never begins with a minus, which would have been a token. -/
def IsPlain (pending : Pending) : Prop := pending.text.head? ≠ some '-'

theorem isScanned_of_finish (hp : pending.IsPlain) (h : pending.finish offset = .ok tokens) :
    ∀ t ∈ tokens, t.IsScanned := by
  cases pending with
  | nothing =>
    cases h
    simp
  | word => cases h
  | numeral start text =>
    rw [finish] at h
    split at h
    · next hfinite =>
      cases h
      intro t ht
      obtain rfl := List.mem_singleton.mp ht
      obtain ⟨v, hv, hunsigned⟩ := Binary64.isUnsigned_of_ofList? hp hfinite
      have hread : Binary64.ofText? (String.ofList text) = some v := by
        rw [Binary64.ofText?, String.toList_ofList]
        exact hv
      exact ⟨by simp, fun _ => ⟨v, hread, hunsigned⟩⟩
    · cases h

theorem isPlain_append (hp : pending.IsPlain) (hc : pending.text = [] → c ≠ '-') :
    (pending.text ++ [c]).head? ≠ some '-' := by
  cases htext : pending.text with
  | nil => simpa using hc htext
  | cons d text => simpa [IsPlain, htext] using hp

theorem isScanned_of_extendWord (hp : pending.IsPlain)
    (h : pending.extendWord offset c = (tokens, pending')) :
    (∀ t ∈ tokens, t.IsScanned) ∧ pending'.IsPlain := by
  rcases extendWord_cases h with ⟨kind, hk, rfl, rfl⟩ | ⟨hk, rfl, rfl⟩
  · refine ⟨fun t ht => ?_, by simp [IsPlain, text]⟩
    obtain rfl := List.mem_singleton.mp ht
    exact Token.isScanned_of_keyword hk _
  · refine ⟨by simp, isPlain_append hp fun hempty hc => ?_⟩
    rw [hempty, hc] at hk
    exact absurd hk (by decide)

theorem isScanned_of_step (hp : pending.IsPlain)
    (h : pending.step offset c = .ok (tokens, pending')) :
    (∀ t ∈ tokens, t.IsScanned) ∧ pending'.IsPlain := by
  rcases step_cases h with ⟨-, hfinish, rfl⟩ | ⟨hc, -, rfl, rfl⟩ |
    ⟨-, -, ended, more, hfinish, hextend, rfl⟩ | ⟨-, -, hextend⟩
  · exact ⟨isScanned_of_finish hp hfinish, by simp [IsPlain, text]⟩
  · refine ⟨by simp, isPlain_append hp fun _ hc' => ?_⟩
    subst hc'
    exact absurd hc (by unfold Token.IsNumeralChar; decide)
  · have hnothing : IsPlain .nothing := by simp [IsPlain, text]
    obtain ⟨hmore, hplain⟩ := isScanned_of_extendWord hnothing hextend
    refine ⟨fun t ht => ?_, hplain⟩
    obtain ht | ht := List.mem_append.mp ht
    · exact isScanned_of_finish hp hfinish t ht
    · exact hmore t ht
  · exact isScanned_of_extendWord hp hextend

end Pending

theorem Token.isScanned_of_scanFrom {pending : Pending} (hp : pending.IsPlain) {offset : Nat}
    {text : List Char} {tokens : List Token} (h : scanFrom pending offset text = .ok tokens) :
    ∀ t ∈ tokens, t.IsScanned := by
  induction text generalizing pending offset tokens with
  | nil => exact Pending.isScanned_of_finish hp h
  | cons c text ih =>
    obtain ⟨⟨done, pending'⟩, hstep, h⟩ := exists_ok_of_bind h
    obtain ⟨more, hmore, h⟩ := exists_ok_of_bind h
    obtain ⟨hdone, hp'⟩ := Pending.isScanned_of_step hp hstep
    cases h
    intro t ht
    obtain ht | ht := List.mem_append.mp ht
    · exact hdone t ht
    · exact ih hp' hmore t ht

theorem Token.isScanned_of_scan {text : String} {tokens : List Token}
    (h : scan text = .ok tokens) : ∀ t ∈ tokens, t.IsScanned :=
  isScanned_of_scanFrom (by simp [Pending.IsPlain, Pending.text]) h

/-! ### Numbers of what a text spells -/

namespace Formula

/-- What is read from a text was scanned, and is derived by the grammar. -/
theorem exists_scan_of_ofText {text : String} {a : Formula} (h : ofText text = .ok a) :
    ∃ tokens, Token.scan text = .ok tokens ∧ Spells 1 tokens a := by
  unfold ofText at h
  cases hscan : Token.scan text with
  | error cause =>
    rw [hscan] at h
    cases h
  | ok tokens =>
    rw [hscan] at h
    have hends t (ht : t ∈ tokens) := (Token.isScanned_of_scan hscan t ht).kind_ne_endOfInput
    exact ⟨tokens, rfl, .of_ofTokens hends h⟩

/-- **Numbers that are read are finite and have no sign.** -/
theorem isUnsigned_of_ofText {text : String} {a : Formula} (h : ofText text = .ok a) :
    a.IsUnsigned := by
  obtain ⟨tokens, hscan, hspells⟩ := exists_scan_of_ofText h
  intro v hv
  obtain rfl | ⟨t, ht, hk, hread⟩ := hspells.spelledBy v hv
  · exact Binary64.isUnsigned_of_mem_ruleNumbers (by simp [Binary64.ruleNumbers])
  · obtain ⟨v', hread', hunsigned⟩ := (Token.isScanned_of_scan hscan t ht).isUnsigned hk
    obtain rfl : v' = v := Option.some_inj.mp (hread'.symm.trans hread)
    exact hunsigned

end Formula

end Fluxion
