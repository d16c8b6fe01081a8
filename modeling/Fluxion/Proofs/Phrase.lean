import Fluxion.Proofs.Symbols

/-!
# Phrases

A phrase is a list of symbols together with the way it is grouped when it is read. It keeps what the
formula that is read does not show: where brackets stand, and whether a minus stands in front of an
operand or between two.

Where the printer leaves out brackets, it joins texts that are then grouped anew. Joining phrases
says how: an operator behind a phrase takes as much of its end as binds more tightly
(`Phrase.attach`, `Phrase.append`), and a minus in front of a phrase takes the first operand
(`Phrase.negate`). So whatever is joined can be read (`Phrase.IsGrouped.ofText_eq`).
-/

namespace Fluxion

/-- Symbols, grouped as they are read. -/
inductive Phrase where
  /-- A numeral. -/
  | numeral (text : List Char)
  /-- The variable `x`. -/
  | var
  /-- A named constant. -/
  | constant (c : Constant)
  /-- A phrase in brackets. -/
  | brackets (inner : Phrase)
  /-- A minus in front of an operand. -/
  | minus (operand : Phrase)
  /-- A function in front of its argument. -/
  | function (f : NamedFunction) (argument : Phrase)
  /-- An operator between two phrases. -/
  | infixed (op : Operator) (left right : Phrase)

namespace Phrase

/-- The symbols of a phrase, from left to right. -/
def symbols : Phrase → List Symbol
  | .numeral text => [.numeral text]
  | .var => [.var]
  | .constant c => [.constant c]
  | .brackets p => .openBracket :: p.symbols ++ [.closeBracket]
  | .minus p => .minus :: p.symbols
  | .function f p => .function f :: p.symbols
  | .infixed op p q => p.symbols ++ .operator op :: q.symbols

/-- The formula that a phrase is read as. Brackets leave no node. -/
def formula : Phrase → Formula
  | .numeral text => .number ((Binary64.ofList? text).getD .nan)
  | .var => .var
  | .constant c => .constant c
  | .brackets p => p.formula
  | .minus p => -p.formula
  | .function f p => .apply f p.formula
  | .infixed op p q => .binary op p.formula q.formula

/-- The level of the grammar that a phrase belongs to. -/
def level : Phrase → Int
  | .infixed op _ _ => op.precedence
  | .numeral _ | .var | .constant _ | .brackets _ | .minus _ | .function _ _ => 4

/-- The grouping of a phrase is that of the grammar, and its numerals are such. -/
def IsGrouped : Phrase → Prop
  | .numeral text => Token.IsNumeral text
  | .var | .constant _ => True
  | .brackets p => p.IsGrouped
  | .minus p | .function _ p => p.level = 4 ∧ p.IsGrouped
  | .infixed op p q => op.precedence ≤ p.level ∧ op.precedence < q.level ∧ p.IsGrouped ∧ q.IsGrouped

theorem one_le_level (p : Phrase) : 1 ≤ p.level := by
  cases p with
  | infixed op => exact op.precedence_pos
  | _ => exact (by decide : (1 : Int) ≤ 4)

/-- All but an operator between two phrases is an operand. -/
theorem level_eq_four {p : Phrase} (h : ∀ op l r, p = .infixed op l r → False) : p.level = 4 := by
  cases p with
  | infixed op l r => exact (h op l r rfl).elim
  | _ => rfl

theorem lt_level {p : Phrase} (h : ∀ op l r, p = .infixed op l r → False) (op : Operator) :
    op.precedence < p.level := by
  rw [level_eq_four h]
  exact Int.lt_of_le_of_lt op.precedence_le (by decide)

/-! ### Reading phrases -/

variable {p q : Phrase}

/-- The grammar derives a phrase as its formula. -/
theorem IsGrouped.spells (h : p.IsGrouped) :
    Spells p.level (p.symbols.map Symbol.token) p.formula := by
  induction p with
  | numeral text =>
    obtain ⟨v, hv⟩ := Option.isSome_iff_exists.mp (Option.isSome_of_any h.finite)
    refine .numeral rfl ?_
    simpa [Symbol.token, Symbol.spelling, Binary64.ofText?] using by rw [hv]; rfl
  | var => exact .var rfl
  | constant c => exact .constant rfl
  | brackets p ih =>
    simp only [symbols, List.map_append, List.map_cons]
    exact .brackets rfl rfl ((ih h).lower p.one_le_level)
  | minus p ih => exact .minus rfl (h.1 ▸ ih h.2)
  | function f p ih => exact .function rfl (h.1 ▸ ih h.2)
  | infixed op p q ihp ihq =>
    obtain ⟨hleft, hright, hp, hq⟩ := h
    simp only [symbols, List.map_append, List.map_cons]
    exact .infixed rfl ((ihp hp).lower hleft) ((ihq hq).lower hright)

theorem IsGrouped.isNumeral (h : p.IsGrouped) {text : List Char} (ht : .numeral text ∈ p.symbols) :
    Token.IsNumeral text := by
  induction p with
  | numeral text' =>
    obtain rfl : text = text' := by simpa [symbols] using ht
    exact h
  | var | constant => simp [symbols] at ht
  | brackets p ih => exact ih h (by simpa [symbols] using ht)
  | minus p ih | function f p ih => exact ih h.2 (by simpa [symbols] using ht)
  | infixed op p q ihp ihq =>
    simp only [symbols, List.mem_append, List.mem_cons, reduceCtorEq, false_or] at ht
    exact ht.elim (ihp h.2.2.1) (ihq h.2.2.2)

/-- **A phrase is read as its formula.** -/
theorem IsGrouped.ofText_eq (h : p.IsGrouped) :
    Formula.ofText (String.ofList (p.symbols.flatMap Symbol.spelling)) = .ok p.formula :=
  Formula.ofText_symbols (fun _ => h.isNumeral) (h.spells.lower p.one_le_level)

/-! ### Joining phrases -/

/-- An operator and a phrase that binds more tightly, behind a phrase. -/
def attach (op : Operator) (q : Phrase) : Phrase → Phrase
  | .infixed op' p r =>
    if op'.precedence < op.precedence then .infixed op' p (attach op q r)
    else .infixed op (.infixed op' p r) q
  | p => .infixed op p q

/-- Two phrases with an operator between them. -/
def append (p : Phrase) (op : Operator) : Phrase → Phrase
  | .infixed op' q r => attach op' r (append p op q)
  | q => attach op q p

/-- A minus in front of a phrase. -/
def negate : Phrase → Phrase
  | .infixed op p q => .infixed op (negate p) q
  | p => .minus p

theorem symbols_attach (op : Operator) (q p : Phrase) :
    (attach op q p).symbols = p.symbols ++ .operator op :: q.symbols := by
  fun_induction attach op q p with
  | case1 op' p r hlt ih => simp [symbols, ih]
  | case2 op' p r hle => rfl
  | case3 p hp => rfl

theorem symbols_append (p : Phrase) (op : Operator) (q : Phrase) :
    (append p op q).symbols = p.symbols ++ .operator op :: q.symbols := by
  fun_induction append p op q with
  | case1 op' q r ih => simp [symbols_attach, symbols, ih]
  | case2 q hq => exact symbols_attach op q p

theorem symbols_negate (p : Phrase) : p.negate.symbols = .minus :: p.symbols := by
  fun_induction negate p with
  | case1 op p q ih => simp [symbols, ih]
  | case2 p hp => rfl

theorem level_attach (op : Operator) (q p : Phrase) :
    (attach op q p).level = min p.level op.precedence := by
  fun_induction attach op q p with
  | case1 op' p r hlt ih => exact (Int.min_eq_left hlt.le).symm
  | case2 op' p r hle => exact (Int.min_eq_right (Int.not_lt.mp hle)).symm
  | case3 p hp => exact (Int.min_eq_right (lt_level hp op).le).symm

theorem level_negate (p : Phrase) : p.negate.level = p.level := by
  cases p <;> rfl

theorem IsGrouped.attach {op : Operator} (hp : p.IsGrouped) (hq : q.IsGrouped)
    (hop : op.precedence < q.level) : (Phrase.attach op q p).IsGrouped := by
  fun_induction Phrase.attach op q p with
  | case1 op' p r hlt ih =>
    obtain ⟨hleft, hright, hp, hr⟩ := hp
    refine ⟨hleft, ?_, hp, ih hr⟩
    rw [level_attach]
    exact lt_min hright hlt
  | case2 op' p r hle => exact ⟨Int.not_lt.mp hle, hop, hp, hq⟩
  | case3 p hinfixed => exact ⟨(lt_level hinfixed op).le, hop, hp, hq⟩

theorem IsGrouped.append {op : Operator} (hp : p.IsGrouped) (hq : q.IsGrouped) :
    (Phrase.append p op q).IsGrouped := by
  fun_induction Phrase.append p op q with
  | case1 op' q r ih => exact (ih hq.2.2.1).attach hq.2.2.2 hq.2.1
  | case2 q hinfixed => exact hp.attach hq (lt_level hinfixed op)

theorem IsGrouped.negate (hp : p.IsGrouped) : p.negate.IsGrouped := by
  fun_induction Phrase.negate p with
  | case1 op p q ih => exact ⟨p.level_negate ▸ hp.1, hp.2.1, ih hp.2.2.1, hp.2.2.2⟩
  | case2 p hinfixed => exact ⟨level_eq_four hinfixed, hp⟩

end Phrase

end Fluxion
