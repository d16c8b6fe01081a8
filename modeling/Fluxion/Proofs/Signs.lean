import Fluxion.Proofs.Binary64.Opposite
import Fluxion.Proofs.Legible

/-!
# Numbers with a sign

A number with a sign is printed with a minus in front of its digits. Scanning makes two tokens of
it, the minus and the digits, so it is read as the negation of a number without a sign, which has
the same value (`Spells.exists_unsigned`). Nothing comes between the minus and the digits, as a minus
binds more tightly than any operator. So the text of a legible formula stands for the formula also
where numbers have signs (`Formula.PrintsBack.exists_ofText_text_extends`).
-/

namespace Fluxion

/-! ### Opposite formulas -/

namespace Formula.Extends

variable {a b : Formula}

theorem neg (h : a.Extends b) : (-a).Extends (-b) := by
  rw [neg_def, neg_def, sub_def, sub_def]
  exact (refl 0).binary .sub h

/-- The negation of a number stands for the number with the other sign. -/
theorem neg_number (v : Binary64) : (-Formula.number v).Extends (.number v.neg) := by
  intro D x h
  refine ⟨definedAt_neg.mpr (v.isFinite_neg.symm.trans h), ?_⟩
  rw [eval_neg, eval, eval, Binary64.toReal_neg]

end Formula.Extends

/-! ### Taking signs apart -/

/-- The tokens that a token is scanned as: the minus of a numeral is a token of its own. -/
def Token.unsigned (token : Token) : List Token :=
  match token.kind, token.text.toList with
  | .numeral, '-' :: text =>
    [⟨.operator .sub, "-", token.span⟩, ⟨.numeral, String.ofList text, token.span⟩]
  | _, _ => [token]

theorem Token.unsigned_of_kind {token : Token} (h : token.kind ≠ .numeral) :
    token.unsigned = [token] := by
  unfold unsigned
  split
  · next hk _ => exact absurd hk h
  · rfl

/-- The symbols that a symbol is scanned as. -/
def Symbol.unsigned : Symbol → List Symbol
  | .numeral ('-' :: text) => [.minus, .numeral text]
  | s => [s]

theorem Symbol.spelling_unsigned (s : Symbol) : s.unsigned.flatMap spelling = s.spelling := by
  unfold unsigned
  split
  · simp [spelling]
  · simp

theorem Symbol.map_token_unsigned (s : Symbol) : s.unsigned.map token = s.token.unsigned := by
  unfold unsigned Token.unsigned
  split
  · simp only [token, kind, spelling, String.toList_ofList, List.map_cons, List.map_nil]
  · next hs =>
    split
    · next hk ht =>
      cases s with
      | numeral text =>
        simp only [token, spelling, String.toList_ofList] at ht
        exact absurd (congrArg Symbol.numeral ht) (hs _)
      | _ => cases hk
    · rfl

/-- Where minus signs are tokens of their own, a formula with the same values is spelled. -/
theorem Spells.exists_unsigned {p : Int} {tokens : List Token} {a : Formula} (h : Spells p tokens a)
    (hsign : ∀ t ∈ tokens, t.kind = .numeral → ∀ text, t.text.toList = '-' :: text →
      Decimal.splitSign text = (false, text)) :
    ∃ b, b.Extends a ∧ Spells p (tokens.flatMap Token.unsigned) b := by
  induction h with
  | @numeral token v hk hv =>
    rw [List.flatMap_singleton, Token.unsigned, hk]
    split
    · next text _ htext =>
      rw [Binary64.ofText?, htext,
        Binary64.ofList?_minus (hsign token (by simp) hk text htext)] at hv
      obtain ⟨w, hw, rfl⟩ := Option.map_eq_some_iff.mp hv
      have hread : Binary64.ofText? (String.ofList text) = some w := by
        rwa [Binary64.ofText?, String.toList_ofList]
      have hdigits : Spells 4 [⟨.numeral, String.ofList text, token.span⟩] (.number w) :=
        .numeral rfl hread
      exact ⟨-.number w, .neg_number w, .minus rfl hdigits⟩
    · exact ⟨.number v, .refl _, .numeral hk hv⟩
  | var hk =>
    rw [List.flatMap_singleton, Token.unsigned_of_kind (by simp [hk])]
    exact ⟨.var, .refl _, .var hk⟩
  | @constant token c hk =>
    rw [List.flatMap_singleton, Token.unsigned_of_kind (by simp [hk])]
    exact ⟨.constant c, .refl _, .constant hk⟩
  | brackets ho hc _ ih =>
    obtain ⟨b, hb, hspells⟩ := ih fun t ht => hsign t (by simp [ht])
    rw [List.flatMap_cons, List.flatMap_append, List.flatMap_singleton,
      Token.unsigned_of_kind (by simp [ho]), Token.unsigned_of_kind (by simp [hc])]
    exact ⟨b, hb, .brackets ho hc hspells⟩
  | minus hk _ ih =>
    obtain ⟨b, hb, hspells⟩ := ih fun t ht => hsign t (by simp [ht])
    rw [List.flatMap_cons, Token.unsigned_of_kind (by simp [hk])]
    exact ⟨-b, hb.neg, .minus hk hspells⟩
  | @function token f _ _ hk _ ih =>
    obtain ⟨b, hb, hspells⟩ := ih fun t ht => hsign t (by simp [ht])
    rw [List.flatMap_cons, Token.unsigned_of_kind (by simp [hk])]
    exact ⟨.apply f b, hb.apply f, .function hk hspells⟩
  | infixed hk _ _ iha ihb =>
    obtain ⟨c, hc, hleft⟩ := iha fun t ht => hsign t (by simp [ht])
    obtain ⟨d, hd, hright⟩ := ihb fun t ht => hsign t (by simp [ht])
    rw [List.flatMap_append, List.flatMap_cons, Token.unsigned_of_kind (by simp [hk])]
    exact ⟨_, hc.binary _ hd, .infixed hk hleft hright⟩
  | lift _ ih =>
    obtain ⟨b, hb, hspells⟩ := ih hsign
    exact ⟨b, hb, .lift hspells⟩

/-! ### Scanning what is printed -/

/-- A numeral, or one behind a minus. -/
def Token.IsSignedNumeral (text : List Char) : Prop :=
  IsNumeral text ∨ ∃ digits, text = '-' :: digits ∧ IsNumeral digits

theorem Token.isSignedNumeral_toList {v : Binary64} (h : v.isFinite = true) :
    IsSignedNumeral v.toList := by
  cases v with
  | finite negative place =>
    have hnumeral : IsNumeral (Binary64.finite false place).toList := isNumeral_toList ⟨place, rfl⟩
    cases negative with
    | false => exact .inl hnumeral
    | true => exact .inr ⟨_, Binary64.toList_negative place, hnumeral⟩
  | infinite | nan => exact absurd h Bool.false_ne_true

/-- No two numerals stand side by side, when signs are taken apart. -/
def Symbol.Apart (symbols : List Symbol) : Prop :=
  ((symbols.flatMap unsigned).map token).IsChain fun t t' => t.kind = .numeral → t'.kind ≠ .numeral

namespace Symbol.Apart

theorem nil : Apart [] := List.IsChain.nil

/-- Every other symbol keeps numerals apart. -/
theorem join {left right : List Symbol} {s : Symbol} (hs : s.kind ≠ .numeral) (hl : Apart left)
    (hr : Apart right) : Apart (left ++ s :: right) := by
  have hunsigned : s.unsigned = [s] := by
    cases s with
    | numeral => exact absurd rfl hs
    | _ => rfl
  unfold Apart
  rw [List.flatMap_append, List.flatMap_cons, hunsigned, List.singleton_append, List.map_append,
    List.map_cons]
  refine List.isChain_append.mpr ⟨hl, List.isChain_cons.mpr ⟨fun _ _ hk => absurd hk hs, hr⟩, ?_⟩
  intro _ _ t ht _
  obtain rfl : s.token = t := by simpa using ht
  exact hs

theorem cons {right : List Symbol} {s : Symbol} (hs : s.kind ≠ .numeral) (hr : Apart right) :
    Apart (s :: right) := @join [] right s hs .nil hr

theorem numeral (text : List Char) : Apart [.numeral text] := by
  unfold Apart
  rw [List.flatMap_singleton]
  unfold unsigned
  split
  · exact .cons_cons nofun (.singleton _)
  · exact .singleton _

/-- Printing keeps numerals apart. -/
theorem closed : Printed.Closed Apart where
  zero := .numeral _
  one := .numeral _
  minus h := cons nofun h
  brackets h := cons nofun (join nofun h .nil)
  function h := cons nofun (cons nofun (join nofun h .nil))
  joined hs ht := join nofun hs ht

end Symbol.Apart

namespace Formula

variable {a : Formula}

/-- The symbols that a formula is scanned as. -/
def scannedSymbols (a : Formula) : List Symbol := a.printed.symbols.flatMap Symbol.unsigned

theorem isSignedNumeral_of_mem_printed (h : a.IsFinite) {text : List Char}
    (hmem : .numeral text ∈ a.printed.symbols) : Token.IsSignedNumeral text :=
  of_numeral_mem_printed (.inl (Token.isNumeral_toDigits (n := 0) (by decide)))
    (.inl (Token.isNumeral_toDigits (n := 1) (by decide)))
    (fun v hv => Token.isSignedNumeral_toList (h v hv)) hmem

theorem isNumeral_of_mem_scannedSymbols (h : a.IsFinite) {text : List Char}
    (hmem : .numeral text ∈ a.scannedSymbols) : Token.IsNumeral text := by
  obtain ⟨s, hs, hmem⟩ := List.mem_flatMap.mp hmem
  unfold Symbol.unsigned at hmem
  split at hmem
  · next text' =>
    obtain rfl : text = text' := by simpa using hmem
    rcases isSignedNumeral_of_mem_printed h hs with hnumeral | ⟨_, heq, hnumeral⟩
    · exact absurd (hnumeral.chars '-' (by simp)) (by unfold Token.IsNumeralChar; decide)
    · rwa [(List.cons.inj heq).2]
  · next hsign =>
    obtain rfl := List.mem_singleton.mp hmem
    rcases isSignedNumeral_of_mem_printed h hs with hnumeral | ⟨_, rfl, _⟩
    · exact hnumeral
    · exact absurd rfl (hsign _)

/-- **The text of a formula is scanned as its symbols**, with the signs of numbers taken apart. -/
theorem IsFinite.exists_scan_text (h : a.IsFinite) :
    ∃ tokens, Token.scan a.text = .ok tokens ∧
      tokens.map Token.terminal = (a.scannedSymbols.map Symbol.token).map Token.terminal := by
  have hapart : Symbol.Apart a.printed.symbols :=
    Symbol.Apart.closed.printed (.singleton _) (fun _ => .singleton _) fun _ _ => .numeral _
  have hspelling : a.scannedSymbols.flatMap Symbol.spelling = a.printed.toList := by
    simp only [scannedSymbols, Printed.toList, List.flatMap_assoc, Symbol.spelling_unsigned]
  obtain ⟨tokens, hscan, hterminals⟩ :=
    Token.scanFrom_symbols (fun _ => isNumeral_of_mem_scannedSymbols h) hapart 0
  refine ⟨tokens, ?_, hterminals⟩
  rwa [hspelling, ← String.toList_ofList (l := a.printed.toList)] at hscan

theorem PrintsBack.isFinite (h : a.PrintsBack) : a.IsFinite := fun v hv => (h v hv).1

theorem PrintsBack.of_ruleNumbers (h : a.numbers ⊆ Binary64.ruleNumbers) : a.PrintsBack :=
  IsExact.printsBack fun _ hv =>
    ⟨Binary64.isUnsigned_of_mem_ruleNumbers (h hv), Binary64.printsBack_of_mem_ruleNumbers (h hv)⟩

/-- **The text of a legible formula is read as a formula that extends it**, whatever the signs of its
numbers. -/
theorem PrintsBack.exists_ofText_text_extends (h : a.PrintsBack) (hl : a.legible = true) :
    ∃ b, ofText a.text = .ok b ∧ b.Extends a := by
  obtain ⟨c, hc, hspells⟩ := h.preserved hl
  obtain ⟨tokens, hscan, hterminals⟩ := h.isFinite.exists_scan_text
  obtain ⟨b, hb, hspells⟩ := hspells.exists_unsigned fun t ht hk text htext => by
    obtain ⟨s, hs, rfl⟩ := List.mem_map.mp ht
    cases s with
    | numeral digits =>
      obtain rfl : digits = '-' :: text := by simpa [Symbol.token, Symbol.spelling] using htext
      have hmem : .numeral text ∈ a.scannedSymbols :=
        List.mem_flatMap.mpr ⟨_, hs, by simp [Symbol.unsigned]⟩
      exact (isNumeral_of_mem_scannedSymbols h.isFinite hmem).splitSign_eq
    | _ => cases hk
  have hsymbols : a.tokens.flatMap Token.unsigned = a.scannedSymbols.map Symbol.token := by
    simp only [Formula.tokens, scannedSymbols, List.flatMap_map, List.map_flatMap,
      Symbol.map_token_unsigned]
  rw [hsymbols] at hspells
  refine ⟨b, ?_, hb.trans hc⟩
  rw [ofText, hscan]
  exact (hspells.of_terminals hterminals).ofTokens_eq

end Formula

end Fluxion
