import Fluxion.Proofs.Binary64.Rewritten
import Fluxion.Proofs.Clean
import Fluxion.Proofs.Phrase

/-!
# Settled formulas

Reading the text of a formula need not give the formula back. Operands that printing leaves out are
gone, and a minus that the printer puts in front of a whole operand is read in front of the first
part of it. Both can go on when what was read is printed again, since new zeros and ones can come
out next to an operator, and a minus can move on into a bracket.

But neither can go on forever. The symbols that a formula takes (`Formula.length`) get fewer with
each operand that is left out, and else the symbols that minus signs stand in front of
(`Formula.negated`) get fewer with each minus that moves. A formula for which neither happens is
settled (`Formula.Settled`), and then a clean formula prints alike (`Formula.Settled.exists_clean`).
-/

namespace Fluxion

/-! ### Measures -/

namespace Phrase

/-- How many symbols there are, brackets not counted. -/
def length : Phrase → Nat
  | .numeral _ | .var | .constant _ => 1
  | .brackets p => p.length
  | .minus p | .function _ p => p.length + 1
  | .infixed _ p q => p.length + q.length + 1

/-- How many symbols minus signs stand in front of, brackets not counted. What stands behind several
of them counts several times. -/
def negated : Phrase → Nat
  | .numeral _ | .var | .constant _ => 0
  | .brackets p | .function _ p => p.negated
  | .minus p => p.length + p.negated
  | .infixed _ p q => p.negated + q.negated

theorem length_pos (p : Phrase) : 0 < p.length := by
  induction p with
  | brackets p ih => exact ih
  | _ => exact Nat.succ_pos _

theorem length_attach (op : Operator) (q p : Phrase) :
    (attach op q p).length = p.length + q.length + 1 := by
  fun_induction attach op q p with
  | case1 op' p r hlt ih => simp only [length, ih]; omega
  | case2 | case3 => rfl

theorem length_append (p : Phrase) (op : Operator) (q : Phrase) :
    (append p op q).length = p.length + q.length + 1 := by
  fun_induction append p op q with
  | case1 op' q r ih => simp only [length_attach, length, ih]; omega
  | case2 q hq => exact length_attach op q p

theorem negated_attach (op : Operator) (q p : Phrase) :
    (attach op q p).negated = p.negated + q.negated := by
  fun_induction attach op q p with
  | case1 op' p r hlt ih => simp only [negated, ih]; omega
  | case2 | case3 => rfl

theorem negated_append (p : Phrase) (op : Operator) (q : Phrase) :
    (append p op q).negated = p.negated + q.negated := by
  fun_induction append p op q with
  | case1 op' q r ih => simp only [negated_attach, negated, ih]; omega
  | case2 q hq => exact negated_attach op q p

theorem length_negate (p : Phrase) : p.negate.length = p.length + 1 := by
  fun_induction negate p with
  | case1 op p q ih => simp only [length, ih]; omega
  | case2 => rfl

/-- A minus in front of a phrase stands in front of all of it only if the phrase is one operand. -/
theorem negated_negate (p : Phrase) : p.negate.negated ≤ p.length + p.negated ∧
    (p.negate.negated = p.length + p.negated → p.level = 4) := by
  fun_induction negate p with
  | case1 op p q ih =>
    have hq := q.length_pos
    simp only [length, negated]
    omega
  | case2 p hp => exact ⟨Nat.le_refl _, fun _ => level_eq_four hp⟩

theorem level_append_lt (p : Phrase) (op : Operator) (q : Phrase) : (append p op q).level < 4 := by
  have hattach (op : Operator) (q p : Phrase) : (attach op q p).level < 4 := by
    rw [level_attach]
    exact Int.lt_of_le_of_lt (Int.min_le_right _ _)
      (Int.lt_of_le_of_lt op.precedence_le (by decide))
  cases q <;> exact hattach _ _ _

end Phrase

namespace Formula

/-- A difference is printed as a minus if its left operand prints as zero. -/
def isMinus (op : Operator) (left : Formula) : Bool := op = .sub && left.printed.isZero

/-- How many symbols a formula takes if nothing is left out, brackets not counted. -/
def length : Formula → Nat
  | .number _ | .var | .constant _ => 1
  | .binary op a b => if isMinus op a then b.length + 1 else a.length + b.length + 1
  | .apply _ a => a.length + 1

/-- How many symbols minus signs stand in front of, brackets not counted. -/
def negated : Formula → Nat
  | .number _ | .var | .constant _ => 0
  | .binary op a b => if isMinus op a then b.length + b.negated else a.negated + b.negated
  | .apply _ a => a.negated

section Minus

variable {op : Operator} {a : Formula} (b : Formula)

theorem length_of_isMinus (h : isMinus op a = true) : (binary op a b).length = b.length + 1 :=
  if_pos h

theorem negated_of_isMinus (h : isMinus op a = true) :
    (binary op a b).negated = b.length + b.negated := if_pos h

theorem length_of_not_isMinus (h : isMinus op a = false) :
    (binary op a b).length = a.length + b.length + 1 := if_neg (ne_true_of_eq_false h)

theorem negated_of_not_isMinus (h : isMinus op a = false) :
    (binary op a b).negated = a.negated + b.negated := if_neg (ne_true_of_eq_false h)

end Minus

theorem length_pos (a : Formula) : 0 < a.length := by
  cases a with
  | binary op a b =>
    rw [length]
    split <;> exact Nat.succ_pos _
  | _ => exact Nat.succ_pos _

end Formula

/-- What is read takes no more symbols than the text has; and if it takes as many, the minus signs
stand in front of the same. -/
theorem Phrase.length_formula (p : Phrase) : p.formula.length ≤ p.length ∧
    (p.formula.length = p.length → p.formula.negated = p.negated) := by
  induction p with
  | numeral | var | constant => exact ⟨Nat.le_refl _, fun _ => rfl⟩
  | brackets p ih => exact ih
  | minus p ih =>
    have hminus : Formula.isMinus .sub 0 = true := Formula.isZero_zero
    have hlength : (-p.formula).length = p.formula.length + 1 :=
      Formula.length_of_isMinus p.formula hminus
    have hnegated : (-p.formula).negated = p.formula.length + p.formula.negated :=
      Formula.negated_of_isMinus p.formula hminus
    simp only [formula, length, negated, hlength, hnegated]
    omega
  | function f p ih =>
    simp only [formula, length, negated, Formula.length, Formula.negated]
    omega
  | infixed op p q ihp ihq =>
    have hp := p.length_pos
    simp only [formula, length, negated, Formula.length, Formula.negated]
    split <;> omega

/-! ### Settled formulas -/

namespace Formula

/-- Operands that both are printed, where a minus is put in front of a single operand only. -/
def FullOperands (a b : Formula) : Operator → Prop
  | .add => a.printed.isZero = false ∧ b.printed.isZero = false
  | .sub => b.printed.isZero = false ∧ (a.printed.isZero = true → b.rank.binding = 4)
  | .mul => a.printed.isZero = false ∧ a.printed.isOne = false ∧
      b.printed.isZero = false ∧ b.printed.isOne = false
  | .div => a.printed.isZero = false ∧ b.printed.isOne = false
  | .pow => b.printed.isZero = false ∧ b.printed.isOne = false ∧ a.printed.isZero = false

/-- A formula of which nothing is left out when it is printed, and in which only what is no operator
itself is negated. -/
def Settled : Formula → Prop
  | .number _ | .var | .constant _ => True
  | .binary op a b => (isMinus op a = true ∨ a.Settled) ∧ b.Settled ∧ a.FullOperands b op
  | .apply f a => a.Settled ∧ Printed.knownValue? f a.printed = none

end Formula

/-! ### Phrases of printed formulas -/

/-- The phrase has the symbols of the printed formula, is no longer than the formula and negates no
more; and if it is as long and negates as much, the formula is settled. -/
structure Phrase.IsFor (p : Phrase) (a : Formula) : Prop where
  isGrouped : p.IsGrouped
  symbols_eq : p.symbols = a.printed.symbols
  length_le : p.length ≤ a.length
  negated_le : p.negated ≤ a.negated
  settled : p.length = a.length → p.negated = a.negated → a.Settled
  binding_eq : p.length = a.length → p.level = 4 → a.rank.binding = 4

namespace Phrase.IsFor

open Formula (isMinus)

variable {p q : Phrase} {a b : Formula} {op : Operator}

/-- Where an operand has been left out, the rest is shorter. -/
theorem of_lt (hp : p.IsGrouped) (hs : p.symbols = a.printed.symbols) (hlt : p.length < a.length)
    (hn : p.negated ≤ a.negated) : p.IsFor a where
  isGrouped := hp
  symbols_eq := hs
  length_le := hlt.le
  negated_le := hn
  settled h := absurd h hlt.ne
  binding_eq h := absurd h hlt.ne

/-- Only the right operand is printed. -/
theorem of_right (hq : q.IsFor b)
    (hs : (Formula.binary op a b).printed.symbols = b.printed.symbols) :
    ∃ r : Phrase, r.IsFor (.binary op a b) := by
  have hl := hq.length_le
  have hn := hq.negated_le
  refine ⟨q, .of_lt hq.isGrouped (hq.symbols_eq.trans hs.symm) ?_ ?_⟩
  · rw [Formula.length]
    split <;> omega
  · rw [Formula.negated]
    split <;> omega

/-- Only the left operand is printed. -/
theorem of_left (hp : p.IsFor a) (hminus : isMinus op a = false)
    (hs : (Formula.binary op a b).printed.symbols = a.printed.symbols) :
    ∃ r : Phrase, r.IsFor (.binary op a b) := by
  have hl := hp.length_le
  have hn := hp.negated_le
  refine ⟨p, .of_lt hp.isGrouped (hp.symbols_eq.trans hs.symm) ?_ ?_⟩
  · rw [Formula.length_of_not_isMinus b hminus]
    omega
  · rw [Formula.negated_of_not_isMinus b hminus]
    omega

/-- A whole number is printed instead. -/
theorem of_toDigits {n : Nat} (hn : n < 0x20000000000000)
    (hs : a.printed.symbols = [.numeral (Nat.toDigits 10 n)]) (hlt : 1 < a.length) :
    ∃ r : Phrase, r.IsFor a :=
  ⟨.numeral (Nat.toDigits 10 n), .of_lt (Token.isNumeral_toDigits hn) hs.symm hlt (Nat.zero_le _)⟩

/-- The symbols are a phrase, or a phrase in brackets. -/
def Bracketed (p : Phrase) (symbols : List Symbol) : Prop :=
  ∃ r : Phrase, r.IsGrouped ∧ r.symbols = symbols ∧ r.length = p.length ∧ r.negated = p.negated

theorem bare (hp : p.IsFor a) : Bracketed p a.printed.symbols :=
  ⟨p, hp.isGrouped, hp.symbols_eq, rfl, rfl⟩

theorem between (hp : p.IsFor a) (low high : Rank) : Bracketed p (a.printed.between low high) := by
  unfold Printed.between
  split
  · exact ⟨.brackets p, hp.isGrouped, by rw [symbols, hp.symbols_eq], rfl, rfl⟩
  · exact hp.bare

/-- Both operands are printed. -/
theorem joined {left right : List Symbol} {rank : Rank} (hp : p.IsFor a) (hq : q.IsFor b)
    (hminus : isMinus op a = false) (hfull : a.FullOperands b op)
    (hprinted : (Formula.binary op a b).printed = .joined op left right rank)
    (hleft : Bracketed p left) (hright : Bracketed q right) :
    ∃ r : Phrase, r.IsFor (.binary op a b) := by
  obtain ⟨p', hp', hps, hpl, hpn⟩ := hleft
  obtain ⟨q', hq', hqs, hql, hqn⟩ := hright
  have hal := hp.length_le
  have hbl := hq.length_le
  have han := hp.negated_le
  have hbn := hq.negated_le
  have hlength := Formula.length_of_not_isMinus b hminus
  have hnegated := Formula.negated_of_not_isMinus b hminus
  refine ⟨append p' op q', hp'.append hq', ?_, ?_, ?_, fun hl hn => ?_, fun _ h => ?_⟩
  · rw [symbols_append, hps, hqs, hprinted, Printed.joined]
  · rw [length_append, hlength]
    omega
  · rw [negated_append, hnegated]
    omega
  · rw [length_append, hlength] at hl
    rw [negated_append, hnegated] at hn
    exact ⟨.inr (hp.settled (by omega) (by omega)), hq.settled (by omega) (by omega), hfull⟩
  · exact absurd h (level_append_lt p' op q').ne

/-- A minus is put in front of the right operand. -/
theorem minus (hq : q.IsFor b) (ha : a.printed.isZero = true) (hb : b.printed.isZero = false) :
    ∃ r : Phrase, r.IsFor (.binary .sub a b) := by
  have hminus : isMinus .sub a = true := ha
  have hlength := Formula.length_of_isMinus b hminus
  have hnegated := Formula.negated_of_isMinus b hminus
  have hprinted : (Formula.binary .sub a b).printed = ⟨.minus :: b.printed.symbols, .negation⟩ := by
    simp [Formula.printed, Printed.binary, Printed.sub, ha, hb]
  have hbl := hq.length_le
  have hbn := hq.negated_le
  obtain ⟨hn, hoperand⟩ := q.negated_negate
  refine ⟨q.negate, hq.isGrouped.negate, ?_, ?_, ?_, fun hl hn' => ?_, fun _ _ => ?_⟩
  · rw [symbols_negate, hq.symbols_eq, hprinted]
  · rw [length_negate, hlength]
    omega
  · rw [hnegated]
    omega
  · rw [length_negate, hlength] at hl
    rw [hnegated] at hn'
    exact ⟨.inl hminus, hq.settled (by omega) (by omega), hb,
      fun _ => hq.binding_eq (by omega) (hoperand (by omega))⟩
  · rw [Formula.rank, hprinted]
    rfl

theorem binary (op : Operator) (hp : p.IsFor a) (hq : q.IsFor b) :
    ∃ r : Phrase, r.IsFor (.binary op a b) := by
  have hone : 1 < a.length + b.length + 1 := by
    have := a.length_pos
    omega
  cases op with
  | add =>
    have hprinted : (Formula.binary .add a b).printed = a.printed.add b.printed := rfl
    unfold Printed.add at hprinted
    split_ifs at hprinted with ha hb
    · exact hq.of_right (by rw [hprinted])
    · exact hp.of_left rfl (by rw [hprinted])
    · simp only [Bool.not_eq_true] at ha hb
      exact hp.joined hq rfl ⟨ha, hb⟩ hprinted hp.bare hq.bare
  | sub =>
    have hprinted : (Formula.binary .sub a b).printed = a.printed.sub b.printed := rfl
    unfold Printed.sub at hprinted
    split_ifs at hprinted with ha hb hb
    · exact hq.of_right (by rw [hprinted])
    · exact hq.minus ha (by simpa using hb)
    · exact hp.of_left (by simpa [isMinus] using ha) (by rw [hprinted])
    · simp only [Bool.not_eq_true] at hb
      exact hp.joined hq (by simpa [isMinus] using ha) ⟨hb, fun h => absurd h ha⟩ hprinted hp.bare
        (hq.between _ _)
  | mul =>
    have hprinted : (Formula.binary .mul a b).printed = a.printed.mul b.printed := rfl
    unfold Printed.mul at hprinted
    split_ifs at hprinted with hzero ha hb
    · exact of_toDigits (n := 0) (by decide) (by rw [hprinted]; rfl) hone
    · exact hq.of_right (by rw [hprinted])
    · exact hp.of_left rfl (by rw [hprinted])
    · simp only [Bool.or_eq_true, not_or, Bool.not_eq_true] at hzero ha hb
      exact hp.joined hq rfl ⟨hzero.1, ha, hzero.2, hb⟩ hprinted (hp.between _ _) (hq.between _ _)
  | div =>
    have hprinted : (Formula.binary .div a b).printed = a.printed.div b.printed := rfl
    unfold Printed.div at hprinted
    split_ifs at hprinted with h
    · exact hp.of_left rfl (by rw [hprinted])
    · simp only [Bool.or_eq_true, not_or, Bool.not_eq_true] at h
      exact hp.joined hq rfl h hprinted (hp.between _ _) (hq.between _ _)
  | pow =>
    have hprinted : (Formula.binary .pow a b).printed = a.printed.pow b.printed := rfl
    unfold Printed.pow at hprinted
    split_ifs at hprinted with hb hzero ha
    · exact hp.of_left rfl (by rw [hprinted])
    · exact of_toDigits (n := 1) (by decide) (by rw [hprinted]; rfl) hone
    · exact hp.of_left rfl (by rw [hprinted])
    · simp only [Bool.not_eq_true] at hb hzero ha
      exact hp.joined hq rfl ⟨hzero, hb, ha⟩ hprinted (hp.between _ _) (hq.between _ _)

theorem apply (f : NamedFunction) (hp : p.IsFor a) : ∃ r : Phrase, r.IsFor (.apply f a) := by
  have hprinted : (Formula.apply f a).printed = .apply f a.printed := rfl
  have hlength : 1 < (Formula.apply f a).length := Nat.succ_lt_succ a.length_pos
  unfold Printed.apply at hprinted
  cases hknown : Printed.knownValue? f a.printed with
  | some value =>
    rw [hknown] at hprinted
    obtain rfl | rfl := Printed.eq_zero_or_one_of_knownValue? hknown
    · exact of_toDigits (n := 0) (by decide) (by rw [hprinted]; rfl) hlength
    · exact of_toDigits (n := 1) (by decide) (by rw [hprinted]; rfl) hlength
  | none =>
    rw [hknown] at hprinted
    have hl := hp.length_le
    refine ⟨.function f (.brackets p), ⟨rfl, hp.isGrouped⟩, ?_, Nat.succ_le_succ hl, hp.negated_le,
      fun hl hn => ⟨hp.settled (Nat.succ_injective hl) hn, hknown⟩, fun _ _ => ?_⟩
    · rw [hprinted, symbols, symbols, hp.symbols_eq]
      rfl
    · rw [Formula.rank, hprinted]
      rfl

end Phrase.IsFor

namespace Formula

variable {a b : Formula}

/-- **Printing makes nothing longer**: the text of a formula is grouped in some way that takes no
more symbols than the formula and negates no more of them. -/
theorem IsUnsigned.exists_isFor (h : a.IsUnsigned) : ∃ p : Phrase, p.IsFor a := by
  induction a with
  | number v =>
    have hnumeral := Token.isNumeral_toList (h v (List.mem_singleton_self v))
    exact ⟨.numeral v.toList, hnumeral, rfl, le_rfl, le_rfl, fun _ _ => trivial, fun _ _ => rfl⟩
  | var => exact ⟨.var, trivial, rfl, le_rfl, le_rfl, fun _ _ => trivial, fun _ _ => rfl⟩
  | constant c =>
    exact ⟨.constant c, trivial, rfl, le_rfl, le_rfl, fun _ _ => trivial, fun _ _ => rfl⟩
  | binary op a b iha ihb =>
    obtain ⟨p, hp⟩ := iha fun v hv => h v (List.mem_append_left _ hv)
    obtain ⟨q, hq⟩ := ihb fun v hv => h v (List.mem_append_right _ hv)
    exact hp.binary op hq
  | apply f a ih =>
    obtain ⟨p, hp⟩ := ih h
    exact hp.apply f

/-- **Reading the text of a formula goes downwards** unless the formula is settled: what is read
takes fewer symbols, or as many and negates fewer. -/
theorem IsUnsigned.settled_or_lt (h : a.IsUnsigned) (hb : ofText a.text = .ok b) :
    a.Settled ∨ b.length < a.length ∨ b.length = a.length ∧ b.negated < a.negated := by
  obtain ⟨p, hp⟩ := h.exists_isFor
  obtain rfl : p.formula = b := by
    have hread := hp.isGrouped.ofText_eq
    rw [hp.symbols_eq] at hread
    exact Except.ok.inj (hread.symm.trans hb)
  obtain ⟨hle, hnegated⟩ := p.length_formula
  have hl := hp.length_le
  have hn := hp.negated_le
  by_cases hlength : p.formula.length = a.length
  · by_cases heq : p.negated = a.negated
    · exact .inl (hp.settled (by omega) heq)
    · have := hnegated (by omega)
      exact .inr (.inr ⟨hlength, by omega⟩)
  · exact .inr (.inl (by omega))

/-! ### Clean formulas that print alike -/

theorem ne_zero_of_isZero (h : a.printed.isZero = false) : a ≠ 0 := by
  rintro rfl
  exact absurd (isZero_zero.symm.trans h) (by decide)

theorem ne_one_of_isOne (h : a.printed.isOne = false) : a ≠ 1 := by
  rintro rfl
  exact absurd (isOne_one.symm.trans h) (by decide)

theorem printed_add (ha : a.printed.isZero = false) (hb : b.printed.isZero = false) :
    (Formula.binary .add a b).printed =
      .joined .add a.printed.symbols b.printed.symbols .additive := by
  simp [printed, Printed.binary, Printed.add, ha, hb]

/-- Neither a sum nor a difference brackets its left operand. -/
theorem exists_printed_eq {op : Operator} (hop : op.precedence = 1)
    (hb : b.printed.isZero = false) : ∃ right, ∀ a : Formula, a.printed.isZero = false →
      (Formula.binary op a b).printed = .joined op a.printed.symbols right .additive := by
  cases op with
  | add => exact ⟨b.printed.symbols, fun a ha => printed_add ha hb⟩
  | sub =>
    refine ⟨b.printed.between .atom .function, fun a ha => ?_⟩
    simp [printed, Printed.binary, Printed.sub, ha, hb]
  | mul | div | pow => exact absurd hop (by decide)

theorem isZero_joined {op : Operator} {left right : List Symbol} {rank : Rank} (h : left ≠ []) :
    (Printed.joined op left right rank).isZero = false := by
  rw [← Bool.not_eq_true, Printed.isZero_iff, Printed.joined]
  obtain ⟨s, rest, rfl⟩ := List.exists_cons_of_ne_nil h
  simp

/-- The left operand of a sum or a difference can be anything but zero. -/
theorem CleanOperands.change_left {op : Operator} (hop : op.precedence = 1)
    (h : a.CleanOperands b op) {c : Formula} (hc : c ≠ 0) : b ≠ 0 ∧ c.CleanOperands b op := by
  cases op with
  | add => exact ⟨h.2.1, hc, h.2⟩
  | sub => exact ⟨h.1, h.1, fun h0 => absurd h0 hc⟩
  | mul | div | pow => exact absurd hop (by decide)

theorem of_shape_eq_additive {op : Operator} (h : (Formula.binary op a b).shape = .additive)
    (hclean : a.CleanOperands b op) : op.precedence = 1 ∧ a ≠ 0 := by
  cases op with
  | add => exact ⟨rfl, hclean.1⟩
  | sub =>
    refine ⟨rfl, fun ha => ?_⟩
    rw [shape, if_pos ha] at h
    exact absurd h (by decide)
  | mul | div | pow => exact absurd h (by simp [shape])

/-- A sum of clean formulas prints like a clean formula, in which sums and differences on the right
are taken apart. -/
theorem Clean.exists_add (ha : a.Clean) (hb : b.Clean) (ha0 : a ≠ 0) (hb0 : b ≠ 0) :
    ∃ c : Formula, c.Clean ∧ c.printed = (Formula.binary .add a b).printed := by
  have haz := ha.isFaithful.isZero_eq_false ha ha0
  have hne : a.printed.symbols ≠ [] := by simpa using ha.isFaithful.spells.ne_nil
  induction b with
  | binary op d e ihd =>
    by_cases hshape : (Formula.binary op d e).shape = .additive
    · have hbz := hb.isFaithful.isZero_eq_false hb hb0
      obtain ⟨hd, he, hoperands⟩ := hb
      obtain ⟨hop, hd0⟩ := of_shape_eq_additive hshape hoperands
      have hdz := hd.isFaithful.isZero_eq_false hd hd0
      have hez := he.isFaithful.isZero_eq_false he (hoperands.change_left hop ha0).1
      -- the left operand is added first, and may have to be taken apart itself
      obtain ⟨c, hc, hprinted⟩ := ihd hd hd0
      have hcz : c.printed.isZero = false := by
        rw [hprinted, printed_add haz hdz]
        exact isZero_joined hne
      obtain ⟨right, hright⟩ := exists_printed_eq hop hez
      refine ⟨.binary op c e,
        ⟨hc, he, (hoperands.change_left hop (ne_zero_of_isZero hcz)).2⟩, ?_⟩
      rw [hright c hcz, hprinted, printed_add haz hdz, printed_add haz hbz, hright d hdz]
      simp [Printed.joined]
    · exact ⟨.binary .add a (.binary op d e), ⟨ha, hb, ha0, hb0, hshape⟩, rfl⟩
  | number | var | constant | apply =>
    exact ⟨.binary .add a _, ⟨ha, hb, ha0, hb0, by simp [shape]⟩, rfl⟩

theorem cleanArgument_of_knownValue? {f : NamedFunction}
    (h : Printed.knownValue? f a.printed = none) : a.CleanArgument f := by
  have hdigits {n : Nat} (hn : n < 0x20000000000000) (heq : a = .number (.ofNat n)) :
      a.printed.symbols = [.numeral (Nat.toDigits 10 n)] := by
    rw [heq, printed, Binary64.toList_ofNat hn]
    rfl
  have hone (heq : a = 1) : a.printed.symbols = [.numeral ['1']] := hdigits (n := 1) (by decide) heq
  cases f with
  | sin | cos | tan | cot => trivial
  | ln =>
    refine ⟨fun heq => ?_, fun heq => ?_⟩
    · subst heq
      exact absurd h (by decide)
    · simp [Printed.knownValue?, hone heq] at h
  | lg =>
    refine ⟨fun heq => ?_, fun heq => ?_⟩
    · have hten : a.printed.symbols = [.numeral ['1', '0']] := hdigits (n := 10) (by decide) heq
      simp [Printed.knownValue?, hten] at h
    · simp [Printed.knownValue?, hone heq] at h
  | sqrt =>
    intro heq
    have hzero : a.printed.symbols = [.numeral ['0']] := hdigits (n := 0) (by decide) heq
    simp [Printed.knownValue?, hzero] at h

theorem Rank.eq_of_binding_eq_four {r : Rank} (h : r.binding = 4) :
    r = .atom ∨ r = .negation ∨ r = .function := by
  revert h
  cases r <;> decide

theorem FullOperands.cleanOperands {op : Operator} (hop : op ≠ .add) (hb : b.Clean)
    (h : a.FullOperands b op) : a.CleanOperands b op := by
  cases op with
  | add => exact absurd rfl hop
  | sub =>
    refine ⟨ne_zero_of_isZero h.1, fun ha0 => ?_⟩
    rw [← hb.isFaithful.rank_eq]
    exact Rank.eq_of_binding_eq_four (h.2 (ha0 ▸ isZero_zero))
  | mul =>
    exact ⟨ne_zero_of_isZero h.1, ne_one_of_isOne h.2.1, ne_zero_of_isZero h.2.2.1,
      ne_one_of_isOne h.2.2.2⟩
  | div => exact ⟨ne_zero_of_isZero h.1, ne_one_of_isOne h.2⟩
  | pow => exact ⟨ne_zero_of_isZero h.1, ne_one_of_isOne h.2.1, ne_zero_of_isZero h.2.2⟩

/-- Whether operands are full is seen from how they print. -/
theorem FullOperands.congr {a' b' : Formula} {op : Operator} (h : a.FullOperands b op)
    (ha : a'.printed = a.printed) (hb : b'.printed = b.printed) : a'.FullOperands b' op := by
  cases op <;> simpa only [FullOperands, rank, ha, hb] using h

/-- **A settled formula prints like a clean one.** -/
theorem Settled.exists_clean (hs : a.Settled) (h : a.IsUnsigned) :
    ∃ c : Formula, c.Clean ∧ c.printed = a.printed := by
  induction a with
  | number v =>
    obtain ⟨w, hread, hw, hlist⟩ := (h v (List.mem_singleton_self v)).exists_toList_eq
    refine ⟨.number w, ⟨hw, hw.printsBack_iff.mpr ?_⟩, ?_⟩
    · rw [hlist, hread]
    · rw [printed, printed, hlist]
  | var => exact ⟨.var, trivial, rfl⟩
  | constant c => exact ⟨.constant c, trivial, rfl⟩
  | binary op a b iha ihb =>
    obtain ⟨hsa, hsb, hfull⟩ := hs
    obtain ⟨d, hd, hdb⟩ := ihb hsb fun v hv => h v (List.mem_append_right _ hv)
    cases hminus : isMinus op a with
    | true =>
      -- the zero in front of the minus can be any
      simp only [isMinus, Bool.and_eq_true, decide_eq_true_eq] at hminus
      obtain ⟨rfl, hzero⟩ := hminus
      have hoperands : FullOperands 0 d .sub := by
        refine ⟨by rw [hdb]; exact hfull.1, fun _ => ?_⟩
        rw [rank, hdb]
        exact hfull.2 hzero
      refine ⟨.binary .sub 0 d,
        ⟨clean_ofNat (by decide), hd, hoperands.cleanOperands (by decide) hd⟩, ?_⟩
      change Printed.sub (printed 0) d.printed = Printed.sub a.printed b.printed
      rw [hdb, Printed.sub, Printed.sub, if_pos isZero_zero, if_pos hzero]
    | false =>
      obtain ⟨c, hc, hca⟩ := iha (hsa.resolve_left (by simp [hminus]))
        fun v hv => h v (List.mem_append_left _ hv)
      have hprinted : (Formula.binary op c d).printed = (Formula.binary op a b).printed := by
        rw [printed, printed, hca, hdb]
      have hoperands := hfull.congr hca hdb
      by_cases hop : op = .add
      · subst hop
        obtain ⟨e, he, heq⟩ := hc.exists_add hd (ne_zero_of_isZero hoperands.1)
          (ne_zero_of_isZero hoperands.2)
        exact ⟨e, he, heq.trans hprinted⟩
      · exact ⟨.binary op c d, ⟨hc, hd, hoperands.cleanOperands hop hd⟩, hprinted⟩
  | apply f a ih =>
    obtain ⟨c, hc, hca⟩ := ih hs.1 h
    refine ⟨.apply f c, ⟨hc, cleanArgument_of_knownValue? (by rw [hca]; exact hs.2)⟩, ?_⟩
    rw [printed, printed, hca]

end Formula

end Fluxion
