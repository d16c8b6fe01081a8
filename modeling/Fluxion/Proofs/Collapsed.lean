import Fluxion.Proofs.Signs

/-!
# What prints as a single token

Before it writes a node, the printer looks whether an operand prints as a plain `0`, `1`, `10` or `e`,
and then writes less. The text of an operand can be the end of a long chain of such simplifications.
But it does not lie: whatever prints as a single numeral, as `x` or as a constant has the value of
that token wherever it is defined (`Formula.PrintsBack.eval_eq_of_scan_text`). So each of these
decisions is right. There is nothing to be said about brackets here, since a single token has none,
and a formula that prints as one is legible whatever it is (`Formula.legible_of_length`).
-/

namespace Fluxion

/-! ### The value of a token -/

/-- The value of a token that is an operand by itself. -/
noncomputable def Token.value? (token : Token) (x : ℝ) : Option ℝ :=
  match token.kind with
  | .numeral => (Binary64.ofText? token.text).map Binary64.toReal
  | .var => some x
  | .constant c => some c.eval
  | _ => none

/-- A single token that spells a formula has its value. -/
theorem Spells.value?_eq {p : Int} {token : Token} {a : Formula} (h : Spells p [token] a) (x : ℝ) :
    token.value? x = some (a.eval x) := by
  generalize htokens : [token] = tokens at h
  induction h with
  | numeral hk hv =>
    cases htokens
    simp only [Token.value?, hk, hv, Option.map_some, Formula.eval]
  | var hk =>
    cases htokens
    simp only [Token.value?, hk, Formula.eval]
  | constant hk =>
    cases htokens
    simp only [Token.value?, hk, Formula.eval]
  | brackets => simp at htokens
  | minus _ h | function _ h => exact absurd (List.cons.inj htokens).2.symm h.ne_nil
  | infixed _ hl hr =>
    have hlength := congrArg List.length htokens
    have := List.length_pos_of_ne_nil hl.ne_nil
    simp only [List.length_append, List.length_cons, List.length_nil] at hlength
    omega
  | lift _ ih => exact ih htokens

/-! ### Single symbols -/

namespace Symbol

/-- A symbol that is an operand by itself. -/
def IsOperand : Symbol → Prop
  | .numeral text => Token.IsNumeral text
  | .var | .constant _ => True
  | _ => False

theorem length_unsigned_pos (s : Symbol) : 0 < s.unsigned.length := by
  unfold unsigned
  split <;> simp

theorem eq_of_unsigned_eq {s t : Symbol} (h : s.unsigned = [t]) : s = t := by
  unfold unsigned at h
  split at h
  · simp at h
  · exact (List.cons.inj h).1

/-- An operand is told by what the grammar sees of its token. -/
theorem IsOperand.eq_of_terminal {s t : Symbol} (hs : s.IsOperand)
    (h : t.token.terminal = s.token.terminal) : t = s := by
  have hkind : t.kind = s.kind := Token.kind_eq_of_terminal h
  cases s with
  | numeral text =>
    have htext := Token.text_eq_of_terminal h rfl
    cases t with
    | numeral text' =>
      simp only [token, spelling, String.ofList_inj] at htext
      rw [htext]
    | _ => cases hkind
  | var => cases t <;> cases hkind; rfl
  | constant c => cases t <;> cases hkind; rfl
  | _ => exact hs.elim

theorem IsOperand.exists_scan {s : Symbol} (hs : s.IsOperand) :
    ∃ token, Token.scan (String.ofList s.spelling) = .ok [token] ∧
      token.terminal = s.token.terminal := by
  have hnumeral : ∀ text, .numeral text ∈ [s] → Token.IsNumeral text := by
    intro text htext
    obtain rfl := List.mem_singleton.mp htext
    exact hs
  obtain ⟨tokens, hscan, hterminals⟩ := Token.scanFrom_symbols hnumeral (.singleton _) 0
  obtain ⟨token, rfl, hterminal⟩ := List.map_eq_singleton_iff.mp hterminals
  refine ⟨token, ?_, hterminal⟩
  rwa [List.flatMap_singleton, ← String.toList_ofList (l := s.spelling)] at hscan

end Symbol

namespace Formula

variable {a : Formula} {token : Token}

/-- What is scanned as a single token was printed as a single symbol. -/
theorem IsFinite.exists_symbols_eq (h : a.IsFinite) (hscan : Token.scan a.text = .ok [token]) :
    ∃ s, a.printed.symbols = [s] ∧ s.token.terminal = token.terminal := by
  obtain ⟨tokens, hscan', hterminals⟩ := h.exists_scan_text
  obtain rfl : [token] = tokens := Except.ok.inj (hscan.symm.trans hscan')
  obtain ⟨t, hsymbols, hterminal⟩ := List.map_eq_singleton_iff.mp hterminals.symm
  obtain ⟨s, hscanned, rfl⟩ := List.map_eq_singleton_iff.mp hsymbols
  refine ⟨s, ?_, hterminal⟩
  rw [scannedSymbols] at hscanned
  obtain ⟨s', rest, hs⟩ := List.exists_cons_of_ne_nil a.symbols_ne_nil
  rw [hs, List.flatMap_cons] at hscanned
  cases rest with
  | nil =>
    rw [List.flatMap_nil, List.append_nil] at hscanned
    rw [hs, Symbol.eq_of_unsigned_eq hscanned]
  | cons s'' rest =>
    have hlength := congrArg List.length hscanned
    have := s'.length_unsigned_pos
    have := s''.length_unsigned_pos
    simp only [List.flatMap_cons, List.length_append, List.length_singleton] at hlength
    omega

/-- To compare the symbols of a formula with one operand is to compare its text. -/
theorem IsFinite.symbols_eq_iff (h : a.IsFinite) {s : Symbol} (hs : s.IsOperand) :
    a.printed.symbols = [s] ↔ a.text = String.ofList s.spelling := by
  constructor
  · intro hsymbols
    rw [text, Printed.toList, hsymbols, List.flatMap_singleton]
  · intro htext
    obtain ⟨token, hscan, hterminal⟩ := hs.exists_scan
    obtain ⟨s', hsymbols, hterminal'⟩ := h.exists_symbols_eq (htext ▸ hscan)
    rw [hsymbols, hs.eq_of_terminal (hterminal'.trans hterminal)]

theorem IsFinite.isZero_iff (h : a.IsFinite) : a.printed.isZero = true ↔ a.text = "0" :=
  a.printed.isZero_iff.trans (h.symbols_eq_iff (Token.isNumeral_toDigits (n := 0) (by decide)))

theorem IsFinite.isOne_iff (h : a.IsFinite) : a.printed.isOne = true ↔ a.text = "1" :=
  a.printed.isOne_iff.trans (h.symbols_eq_iff (Token.isNumeral_toDigits (n := 1) (by decide)))

/-- What is spelled by the single token of a text extends the formula that was printed. -/
theorem PrintsBack.exists_spells_extends (h : a.PrintsBack)
    (hscan : Token.scan a.text = .ok [token]) : ∃ b, Spells 1 [token] b ∧ b.Extends a := by
  obtain ⟨s, hs, hterminal⟩ := h.isFinite.exists_symbols_eq hscan
  obtain ⟨b, hread⟩ := h.isFinite.exists_ofText_text
  obtain ⟨tokens, hscan', hspells⟩ := exists_scan_of_ofText hread
  obtain rfl : [token] = tokens := Except.ok.inj (hscan.symm.trans hscan')
  have hsymbol : Spells 1 [s.token] b := hspells.of_terminals (by simp [hterminal])
  exact ⟨b, hspells, extends_of_symbols h.preserved hs hsymbol⟩

theorem PrintsBack.eval_eq_natCast (h : a.PrintsBack) {n : Nat} (hn : n < 0x20000000000000)
    (hs : a.printed.symbols = [.numeral (Nat.toDigits 10 n)]) {D : Domain} {x : ℝ}
    (hx : a.DefinedAt D x) : a.eval x = n := by
  have hext := extends_of_symbols h.preserved hs (.token_toDigits n)
  rw [← (hext D x hx).2, eval, Binary64.toReal_ofNat hn]

/-- **What prints as a single token has its value**, wherever it is defined: what prints as zero is
zero, and so on. And it is the text that the printer looks at when it compares the symbols of an
operand with a single one. -/
theorem PrintsBack.eval_eq_of_scan_text (h : a.PrintsBack) :
    (∀ token, Token.scan a.text = .ok [token] → ∀ D x, a.DefinedAt D x →
      token.value? x = some (a.eval x)) ∧
    (∀ s : Symbol, s.IsOperand → (a.printed.symbols = [s] ↔ a.text = String.ofList s.spelling)) ∧
    ∀ D x, a.DefinedAt D x →
      (a.text = "0" → a.eval x = 0) ∧ (a.text = "1" → a.eval x = 1) ∧
      (a.text = "10" → a.eval x = 10) ∧ (a.text = "e" → a.eval x = Real.exp 1) := by
  have hsymbols {s : Symbol} (hs : s.IsOperand) := h.isFinite.symbols_eq_iff hs
  refine ⟨fun token hscan D x hx => ?_, fun s hs => hsymbols hs, fun D x hx => ?_⟩
  · obtain ⟨b, hspells, hext⟩ := h.exists_spells_extends hscan
    rw [hspells.value?_eq, (hext D x hx).2]
  · have natural {n : Nat} (hn : n < 0x20000000000000)
        (htext : a.text = String.ofList (Nat.toDigits 10 n)) : a.eval x = n := by
      have hoperand : Symbol.IsOperand (.numeral (Nat.toDigits 10 n)) := Token.isNumeral_toDigits hn
      exact h.eval_eq_natCast hn ((hsymbols hoperand).mpr htext) hx
    refine ⟨fun htext => ?_, fun htext => ?_, fun htext => ?_, fun htext => ?_⟩
    · exact (natural (n := 0) (by decide) htext).trans Nat.cast_zero
    · exact (natural (n := 1) (by decide) htext).trans Nat.cast_one
    · exact natural (n := 10) (by decide) htext
    · have he := (hsymbols (s := .constant .e) trivial).mpr htext
      have hext := extends_of_symbols h.preserved he ((Spells.constant rfl).lower (by decide))
      exact (hext D x hx).2.symm

/-- A logarithm that is one, and a root that is zero, are not seen in the text. -/
theorem eval_eq_of_scan_text_logarithm :
    let a : Formula := .apply .ln (.constant .e) * .var + .apply .sqrt 0
    a.PrintsBack ∧ a.text = "x" ∧ Token.scan a.text = .ok [⟨.var, "x", ⟨0, 1⟩⟩] ∧
      ∀ D x, a.DefinedAt D x → Token.value? ⟨.var, "x", ⟨0, 1⟩⟩ x = some (a.eval x) := by
  intro a
  have hback : a.PrintsBack := .of_ruleNumbers (by decide +kernel)
  have htext : a.text = "x" := by decide +kernel
  have hscan : Token.scan a.text = .ok [⟨.var, "x", ⟨0, 1⟩⟩] := by
    rw [htext]
    rfl
  exact ⟨hback, htext, hscan, hback.eval_eq_of_scan_text.1 _ hscan⟩

end Formula

end Fluxion
