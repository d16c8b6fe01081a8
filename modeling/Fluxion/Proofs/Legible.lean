import Fluxion.Proofs.Clean
import Fluxion.Proofs.Regrouping

/-!
# Formulas that can be read off their text

The printer goes by ranks, and ranks do not always tell how an operand looks: a sum with a zero
ranks as an atom, and what a minus stands in front of is never bracketed. So a text can spell
another function than the printed formula. A formula is legible (`Formula.legible`) if each operand
that is printed without brackets holds, outside its own brackets, only operators that bind tightly
enough for its place. Then its text spells a formula that is defined wherever the printed one is,
with the same values (`Formula.PrintsBack.preserved`): what printing leaves out, it leaves out rightly,
and where the text is grouped otherwise than the formula, nothing changes.
-/

namespace Fluxion

/-! ### What may be left out -/

namespace Formula.Extends

variable {a b : Formula} {D : Domain} {x : ℝ}

theorem eval_eq_zero (h : (0 : Formula).Extends a) (ha : a.DefinedAt D x) : a.eval x = 0 := by
  rw [← (h D x ha).2, eval_zero]

theorem eval_eq_one (h : (1 : Formula).Extends a) (ha : a.DefinedAt D x) : a.eval x = 1 := by
  rw [← (h D x ha).2, eval_one]

theorem of_zero_add (h : (0 : Formula).Extends a) : b.Extends (.binary .add a b) := by
  intro D x ⟨ha, hb, _⟩
  exact ⟨hb, by rw [eval, Operator.eval, h.eval_eq_zero ha, zero_add]⟩

theorem of_add_zero (h : (0 : Formula).Extends b) : a.Extends (.binary .add a b) := by
  intro D x ⟨ha, hb, _⟩
  exact ⟨ha, by rw [eval, Operator.eval, h.eval_eq_zero hb, add_zero]⟩

theorem of_sub_zero (h : (0 : Formula).Extends b) : a.Extends (.binary .sub a b) := by
  intro D x ⟨ha, hb, _⟩
  exact ⟨ha, by rw [eval, Operator.eval, h.eval_eq_zero hb, sub_zero]⟩

theorem zero_of_mul_left (h : (0 : Formula).Extends a) : (0 : Formula).Extends (.binary .mul a b) := by
  intro D x ⟨ha, hb, _⟩
  exact ⟨definedAt_zero, by rw [eval_zero, eval, Operator.eval, h.eval_eq_zero ha, zero_mul]⟩

theorem zero_of_mul_right (h : (0 : Formula).Extends b) : (0 : Formula).Extends (.binary .mul a b) := by
  intro D x ⟨ha, hb, _⟩
  exact ⟨definedAt_zero, by rw [eval_zero, eval, Operator.eval, h.eval_eq_zero hb, mul_zero]⟩

theorem of_one_mul (h : (1 : Formula).Extends a) : b.Extends (.binary .mul a b) := by
  intro D x ⟨ha, hb, _⟩
  exact ⟨hb, by rw [eval, Operator.eval, h.eval_eq_one ha, one_mul]⟩

theorem of_mul_one (h : (1 : Formula).Extends b) : a.Extends (.binary .mul a b) := by
  intro D x ⟨ha, hb, _⟩
  exact ⟨ha, by rw [eval, Operator.eval, h.eval_eq_one hb, mul_one]⟩

theorem zero_of_div (h : (0 : Formula).Extends a) : (0 : Formula).Extends (.binary .div a b) := by
  intro D x ⟨ha, hb, _⟩
  exact ⟨definedAt_zero, by rw [eval_zero, eval, Operator.eval, h.eval_eq_zero ha, zero_div]⟩

theorem of_div_one (h : (1 : Formula).Extends b) : a.Extends (.binary .div a b) := by
  intro D x ⟨ha, hb, _⟩
  exact ⟨ha, by rw [eval, Operator.eval, h.eval_eq_one hb, div_one]⟩

theorem of_pow_one (h : (1 : Formula).Extends b) : a.Extends (.binary .pow a b) := by
  intro D x ⟨ha, hb, _⟩
  exact ⟨ha, by rw [eval, Operator.eval, h.eval_eq_one hb, Real.rpow_one]⟩

theorem one_of_pow_zero (h : (0 : Formula).Extends b) : (1 : Formula).Extends (.binary .pow a b) := by
  intro D x ⟨ha, hb, _⟩
  exact ⟨definedAt_one, by rw [eval_one, eval, Operator.eval, h.eval_eq_zero hb, Real.rpow_zero]⟩

/-- Zero has only powers with a positive exponent, and they are zero. -/
theorem zero_of_pow (h : (0 : Formula).Extends a) : (0 : Formula).Extends (.binary .pow a b) := by
  intro D x ⟨ha, hb, hpower⟩
  change D.power (a.eval x) (b.eval x) at hpower
  rw [h.eval_eq_zero ha] at hpower
  have hne := (D.pos_of_power_zero hpower).ne'
  refine ⟨definedAt_zero, ?_⟩
  rw [eval_zero, eval, Operator.eval, h.eval_eq_zero ha, Real.zero_rpow hne]

end Formula.Extends

/-! ### Legible formulas -/

namespace Formula

/-- The tokens of the text of a formula. -/
def tokens (a : Formula) : List Token := a.printed.symbols.map Symbol.token

/-- The operators in the text that stand outside its brackets. -/
def outside (a : Formula) : List Operator := Token.outside a.tokens

/-- No operator outside brackets binds less tightly than `p`. -/
def binds (p : Int) (a : Formula) : Bool := a.outside.all fun op => p ≤ op.precedence

/-- An operand that is put in brackets between two ranks is in brackets, or binds tightly enough
without. -/
def fits (low high : Rank) (p : Int) (a : Formula) : Bool :=
  a.printed.between low high ≠ a.printed.symbols || a.binds p

/-- A bare minus may stand in front: there is no sum and no difference outside brackets, and no power
comes first. -/
def negatable (a : Formula) : Bool := a.binds 2 && a.outside.head? ≠ some .pow

/-- Each operand that is printed fits into its place. Operands that are left out are not looked at. -/
def legible : Formula → Bool
  | .number _ | .var | .constant _ => true
  | .binary .add a b =>
    if a.printed.isZero then b.legible
    else if b.printed.isZero then a.legible
    else a.legible && b.legible
  | .binary .sub a b =>
    if a.printed.isZero then b.printed.isZero || b.legible && b.negatable
    else if b.printed.isZero then a.legible
    else a.legible && b.legible && b.fits .atom .function 2
  | .binary .mul a b =>
    if a.printed.isZero || b.printed.isZero then true
    else if a.printed.isOne then b.legible
    else if b.printed.isOne then a.legible
    else a.legible && b.legible && a.fits .atom .multiplicative 2 && b.fits .atom .power 2
  | .binary .div a b =>
    if a.printed.isZero then true
    else if b.printed.isOne then a.legible
    else a.legible && b.legible && a.fits .negation .multiplicative 2 && b.fits .atom .power 3
  | .binary .pow a b =>
    if b.printed.isOne then a.legible
    else if b.printed.isZero || a.printed.isZero then true
    else a.legible && b.legible && a.fits .atom .power 3 && b.fits .atom .function 4
  | .apply f a => (Printed.knownValue? f a.printed).isSome || a.legible

section

variable (a b : Formula)

theorem legible_add : (binary .add a b).legible =
    if a.printed.isZero then b.legible
    else if b.printed.isZero then a.legible
    else a.legible && b.legible := rfl

theorem legible_sub : (binary .sub a b).legible =
    if a.printed.isZero then b.printed.isZero || b.legible && b.negatable
    else if b.printed.isZero then a.legible
    else a.legible && b.legible && b.fits .atom .function 2 := rfl

theorem legible_mul : (binary .mul a b).legible =
    if a.printed.isZero || b.printed.isZero then true
    else if a.printed.isOne then b.legible
    else if b.printed.isOne then a.legible
    else a.legible && b.legible && a.fits .atom .multiplicative 2 && b.fits .atom .power 2 := rfl

theorem legible_div : (binary .div a b).legible =
    if a.printed.isZero then true
    else if b.printed.isOne then a.legible
    else a.legible && b.legible && a.fits .negation .multiplicative 2 && b.fits .atom .power 3 := rfl

theorem legible_pow : (binary .pow a b).legible =
    if b.printed.isOne then a.legible
    else if b.printed.isZero || a.printed.isZero then true
    else a.legible && b.legible && a.fits .atom .power 3 && b.fits .atom .function 4 := rfl

theorem legible_apply (f : NamedFunction) :
    (apply f a).legible = ((Printed.knownValue? f a.printed).isSome || a.legible) := rfl

end

/-- All numbers in a formula are finite, without a sign, and printed exactly. -/
def IsExact (a : Formula) : Prop := ∀ v ∈ a.numbers, v.IsUnsigned ∧ v.printsBack = true

/-- All numbers in a formula are finite and printed exactly, with or without a sign. -/
def PrintsBack (a : Formula) : Prop := ∀ v ∈ a.numbers, v.isFinite = true ∧ v.printsBack = true

theorem IsExact.printsBack {a : Formula} (h : a.IsExact) : a.PrintsBack := by
  intro v hv
  obtain ⟨⟨place, rfl⟩, hback⟩ := h v hv
  exact ⟨rfl, hback⟩

/-- Printing keeps what a formula stands for: its text spells a formula that extends it. -/
def Preserved (a : Formula) : Prop := ∃ c, c.Extends a ∧ Spells 1 a.tokens c

end Formula

/-! ### Single symbols -/

theorem Printed.closed_ne_nil : Printed.Closed (· ≠ []) where
  zero := by simp
  one := by simp
  minus _ := by simp
  brackets _ := by simp
  function _ := by simp
  joined _ _ := by simp

namespace Formula

variable {a b c d : Formula}

theorem symbols_ne_nil (a : Formula) : a.printed.symbols ≠ [] :=
  Printed.closed_ne_nil.printed (by simp) (by simp) (by simp)

theorem length_joined_ne_one {op : Operator} {left right : List Symbol} (h : left ≠ []) :
    (left ++ .operator op :: right).length ≠ 1 := by
  have := List.length_pos_of_ne_nil h
  rw [List.length_append, List.length_cons]
  omega

theorem length_binary_ne_one {op : Operator} {low high : Rank} {right : List Symbol} :
    (a.printed.between low high ++ .operator op :: right).length ≠ 1 :=
  length_joined_ne_one (Printed.closed_ne_nil.between low high a.symbols_ne_nil)

/-- A formula that prints as one symbol is legible, whatever it is. -/
theorem legible_of_length (h : a.printed.symbols.length = 1) : a.legible = true := by
  induction a with
  | number | var | constant => rfl
  | binary op a b iha ihb =>
    -- an operand that alone is printed is such a formula, and two operands are too long
    cases op with
    | add =>
      simp only [printed, Printed.binary, Printed.add] at h
      rw [legible_add]
      split_ifs at h ⊢
      · exact ihb h
      · exact iha h
      · exact absurd h (length_joined_ne_one a.symbols_ne_nil)
    | sub =>
      simp only [printed, Printed.binary, Printed.sub] at h
      rw [legible_sub]
      split_ifs at h ⊢ with ha hzero hb
      · rw [hzero]
        rfl
      · have := List.length_pos_of_ne_nil b.symbols_ne_nil
        rw [List.length_cons] at h
        omega
      · exact iha h
      · exact absurd h (length_joined_ne_one a.symbols_ne_nil)
    | mul =>
      simp only [printed, Printed.binary, Printed.mul] at h
      rw [legible_mul]
      split_ifs at h ⊢
      · rfl
      · exact ihb h
      · exact iha h
      · exact absurd h length_binary_ne_one
    | div =>
      simp only [printed, Printed.binary, Printed.div, Bool.or_eq_true] at h
      rw [legible_div]
      split_ifs with ha hb
      · rfl
      · rw [if_pos (.inr hb)] at h
        exact iha h
      · rw [if_neg (not_or.mpr ⟨ha, hb⟩)] at h
        exact absurd h length_binary_ne_one
    | pow =>
      simp only [printed, Printed.binary, Printed.pow] at h
      rw [legible_pow]
      split_ifs with hb hzero
      · rw [if_pos hb] at h
        exact iha h
      · rfl
      · rw [Bool.or_eq_true, not_or] at hzero
        rw [if_neg hb, if_neg hzero.1, if_neg hzero.2] at h
        exact absurd h length_binary_ne_one
  | apply f a =>
    simp only [printed, Printed.apply] at h
    rw [legible_apply]
    cases hknown : Printed.knownValue? f a.printed with
    | some value => rfl
    | none => simp [hknown] at h

/-! ### What is left out -/

/-- A formula that prints as another one, which extends it. -/
theorem Preserved.of_symbols_eq (hb : b.Preserved) (heq : a.printed.symbols = b.printed.symbols)
    (hext : b.Extends a) : a.Preserved := by
  obtain ⟨c, hc, hspells⟩ := hb
  exact ⟨c, hc.trans hext, by rwa [tokens, heq]⟩

/-- A formula that prints as a whole number which extends it. -/
theorem Preserved.of_ofNat {n : Nat} (hs : a.printed.symbols = [.numeral (Nat.toDigits 10 n)])
    (hext : (Formula.number (.ofNat n)).Extends a) : a.Preserved :=
  ⟨_, hext, by rw [tokens, hs]; exact .token_toDigits n⟩

/-- If a formula prints as one symbol, what the symbol spells extends it. -/
theorem extends_of_symbols (h : a.legible = true → a.Preserved) {s : Symbol}
    (hs : a.printed.symbols = [s]) (hc : Spells 1 [s.token] c) : c.Extends a := by
  obtain ⟨d, hd, hspells⟩ := h (legible_of_length (by rw [hs]; rfl))
  rw [tokens, hs] at hspells
  rwa [hc.unique hspells]

theorem extends_zero (h : a.legible = true → a.Preserved) (hs : a.printed.isZero = true) :
    (0 : Formula).Extends a :=
  extends_of_symbols h (a.printed.isZero_iff.mp hs) (.token_toDigits 0)

theorem extends_one (h : a.legible = true → a.Preserved) (hs : a.printed.isOne = true) :
    (1 : Formula).Extends a :=
  extends_of_symbols h (a.printed.isOne_iff.mp hs) (.token_toDigits 1)

/-! ### What is printed -/

/-- An operand that fits is spelled at the level of its place. -/
theorem spells_of_fits {low high : Rank} {p : Int} (h : Spells 1 a.tokens c) (hp : p ≤ 4)
    (hfits : a.fits low high p = true) :
    Spells p ((a.printed.between low high).map Symbol.token) c := by
  unfold fits at hfits
  unfold Printed.between at hfits ⊢
  split
  · rw [List.map_append]
    exact (Spells.brackets rfl rfl h).lower hp
  · next hout =>
    rw [if_neg hout] at hfits
    have hbinds : a.binds p = true := by simpa using hfits
    exact h.raise hp fun op hop => by simpa using List.all_eq_true.mp hbinds op hop

/-- Two operands that are both printed, each at the level of its place. On the right of a plus or a
times the level of the operator itself will do. -/
theorem Preserved.of_joined {op : Operator} {q : Int} {left right : List Symbol} {rank : Rank}
    (hprinted : (Formula.binary op a b).printed = .joined op left right rank)
    (hc : c.Extends a) (hd : d.Extends b) (hl : Spells op.precedence (left.map Symbol.token) c)
    (hr : Spells q (right.map Symbol.token) d)
    (hq : op.precedence + 1 ≤ q ∨ (op = .add ∨ op = .mul) ∧ op.precedence ≤ q) :
    (Formula.binary op a b).Preserved := by
  have htoken : (Symbol.token (.operator op)).kind = .operator op := rfl
  obtain ⟨e, he, hspells⟩ : ∃ e, e.Extends (.binary op c d) ∧
      Spells op.precedence (left.map Symbol.token ++ Symbol.token (.operator op) ::
        right.map Symbol.token) e := by
    rcases hq with hq | ⟨hop, hq⟩
    · exact ⟨_, .refl _, .infixed htoken hl (hr.lower hq)⟩
    · exact hl.regroup hr hop hq htoken
  refine ⟨e, he.trans (hc.binary op hd), ?_⟩
  rw [tokens, hprinted, Printed.joined, List.map_append]
  exact hspells.lower op.precedence_pos

/-- Two operands that are both printed and fit into their places. -/
theorem preserved_of_fits {op : Operator} {low high low' high' : Rank} {q : Int} {rank : Rank}
    (ha : a.legible = true → a.Preserved) (hb : b.legible = true → b.Preserved)
    (hprinted : (Formula.binary op a b).printed =
      .joined op (a.printed.between low high) (b.printed.between low' high') rank)
    (h : (a.legible && b.legible && a.fits low high op.precedence && b.fits low' high' q) = true)
    (hq : q ≤ 4) (hle : op.precedence + 1 ≤ q ∨ (op = .add ∨ op = .mul) ∧ op.precedence ≤ q) :
    (Formula.binary op a b).Preserved := by
  simp only [Bool.and_eq_true] at h
  obtain ⟨⟨⟨hla, hlb⟩, hfa⟩, hfb⟩ := h
  obtain ⟨c, hc, hcs⟩ := ha hla
  obtain ⟨d, hd, hds⟩ := hb hlb
  have hp : op.precedence ≤ 4 := by
    have := op.precedence_le
    omega
  exact .of_joined hprinted hc hd (spells_of_fits hcs hp hfa) (spells_of_fits hds hq hfb) hle

section

variable (ha : a.legible = true → a.Preserved) (hb : b.legible = true → b.Preserved)
include ha hb

theorem preserved_add (h : (Formula.binary .add a b).legible = true) :
    (Formula.binary .add a b).Preserved := by
  have hprinted : (Formula.binary .add a b).printed = a.printed.add b.printed := rfl
  unfold Printed.add at hprinted
  rw [legible_add] at h
  split_ifs at h hprinted with hza hzb
  · exact (hb h).of_symbols_eq (by rw [hprinted]) (.of_zero_add (extends_zero ha hza))
  · exact (ha h).of_symbols_eq (by rw [hprinted]) (.of_add_zero (extends_zero hb hzb))
  · rw [Bool.and_eq_true] at h
    obtain ⟨c, hc, hcs⟩ := ha h.1
    obtain ⟨d, hd, hds⟩ := hb h.2
    exact .of_joined hprinted hc hd hcs hds (.inr ⟨.inl rfl, Int.le_refl 1⟩)

theorem preserved_sub (h : (Formula.binary .sub a b).legible = true) :
    (Formula.binary .sub a b).Preserved := by
  have hprinted : (Formula.binary .sub a b).printed = a.printed.sub b.printed := rfl
  unfold Printed.sub at hprinted
  rw [legible_sub] at h
  split_ifs at h hprinted with hza hzb hzb
  · have hzero := (extends_zero ha hza).binary .sub (extends_zero hb hzb)
    refine .of_ofNat (n := 0) ?_ (.trans (.of_sub_zero (.refl 0)) hzero)
    rw [hprinted]
    exact b.printed.isZero_iff.mp hzb
  · -- the minus reaches the first operand of what is printed behind it
    rw [Bool.or_eq_true, or_iff_right hzb, Bool.and_eq_true, negatable, Bool.and_eq_true] at h
    obtain ⟨hlegible, hbinds, hhead⟩ := h
    have hle : ∀ op ∈ b.outside, 2 ≤ op.precedence := fun op hop => by
      simpa using List.all_eq_true.mp hbinds op hop
    have hminus : Symbol.minus.token.kind = .operator .sub := rfl
    obtain ⟨c, hc, hspells⟩ := hb hlegible
    obtain ⟨d, hd, hspells⟩ := hspells.minus_regroup hminus hle (of_decide_eq_true hhead)
    refine ⟨d, hd.trans ((extends_zero ha hza).binary .sub hc), ?_⟩
    rw [tokens, hprinted]
    exact hspells
  · exact (ha h).of_symbols_eq (by rw [hprinted]) (.of_sub_zero (extends_zero hb hzb))
  · simp only [Bool.and_eq_true] at h
    obtain ⟨⟨hla, hlb⟩, hfb⟩ := h
    obtain ⟨c, hc, hcs⟩ := ha hla
    obtain ⟨d, hd, hds⟩ := hb hlb
    exact .of_joined hprinted hc hd hcs (spells_of_fits hds (by decide) hfb) (.inl (Int.le_refl 2))

theorem preserved_mul (h : (Formula.binary .mul a b).legible = true) :
    (Formula.binary .mul a b).Preserved := by
  have hprinted : (Formula.binary .mul a b).printed = a.printed.mul b.printed := rfl
  unfold Printed.mul at hprinted
  rw [legible_mul] at h
  split_ifs at h hprinted with hz hoa hob
  · refine .of_ofNat (n := 0) (by rw [hprinted]; rfl) ?_
    rcases Bool.or_eq_true_iff.mp hz with hz | hz
    · exact .zero_of_mul_left (extends_zero ha hz)
    · exact .zero_of_mul_right (extends_zero hb hz)
  · exact (hb h).of_symbols_eq (by rw [hprinted]) (.of_one_mul (extends_one ha hoa))
  · exact (ha h).of_symbols_eq (by rw [hprinted]) (.of_mul_one (extends_one hb hob))
  · exact preserved_of_fits ha hb hprinted h (by decide) (.inr ⟨.inr rfl, Int.le_refl 2⟩)

theorem preserved_div (h : (Formula.binary .div a b).legible = true) :
    (Formula.binary .div a b).Preserved := by
  have hprinted : (Formula.binary .div a b).printed = a.printed.div b.printed := rfl
  unfold Printed.div at hprinted
  simp only [Bool.or_eq_true] at hprinted
  rw [legible_div] at h
  split_ifs at h with hza hob
  · rw [if_pos (.inl hza)] at hprinted
    refine .of_ofNat (n := 0) ?_ (.zero_of_div (extends_zero ha hza))
    rw [hprinted]
    exact a.printed.isZero_iff.mp hza
  · rw [if_pos (.inr hob)] at hprinted
    exact (ha h).of_symbols_eq (by rw [hprinted]) (.of_div_one (extends_one hb hob))
  · rw [if_neg (not_or.mpr ⟨hza, hob⟩)] at hprinted
    exact preserved_of_fits ha hb hprinted h (by decide) (.inl (Int.le_refl 3))

theorem preserved_pow (h : (Formula.binary .pow a b).legible = true) :
    (Formula.binary .pow a b).Preserved := by
  have hprinted : (Formula.binary .pow a b).printed = a.printed.pow b.printed := rfl
  unfold Printed.pow at hprinted
  simp only [legible_pow, Bool.or_eq_true] at h
  split_ifs at hprinted with hob hzb hza
  · rw [if_pos hob] at h
    exact (ha h).of_symbols_eq (by rw [hprinted]) (.of_pow_one (extends_one hb hob))
  · exact .of_ofNat (n := 1) (by rw [hprinted]; rfl) (.one_of_pow_zero (extends_zero hb hzb))
  · refine .of_ofNat (n := 0) ?_ (.zero_of_pow (extends_zero ha hza))
    rw [hprinted]
    exact a.printed.isZero_iff.mp hza
  · rw [if_neg hob, if_neg (not_or.mpr ⟨hzb, hza⟩)] at h
    exact preserved_of_fits ha hb hprinted h (by decide) (.inl (Int.le_refl 4))

end

/-- The number that a function is written as is its value. -/
theorem extends_of_knownValue? {f : NamedFunction} {value : Printed}
    (ha : a.legible = true → a.Preserved) (h : Printed.knownValue? f a.printed = some value) :
    ∃ n, value.symbols = [.numeral (Nat.toDigits 10 n)] ∧
      (Formula.number (.ofNat n)).Extends (.apply f a) := by
  have zero {f : NamedFunction} (h : ∀ D x, a.DefinedAt D x → f.eval (a.eval x) = 0) :
      (Formula.number (.ofNat 0)).Extends (.apply f a) := fun D x hd =>
    ⟨definedAt_zero, (eval_zero x).trans (h D x hd.1).symm⟩
  have one {f : NamedFunction} (h : ∀ D x, a.DefinedAt D x → f.eval (a.eval x) = 1) :
      (Formula.number (.ofNat 1)).Extends (.apply f a) := fun D x hd =>
    ⟨definedAt_one, (eval_one x).trans (h D x hd.1).symm⟩
  unfold Printed.knownValue? at h
  split at h
  · next hs =>
    cases h
    have hext : (Formula.constant .e).Extends a :=
      extends_of_symbols ha hs ((Spells.constant rfl).lower (by decide))
    refine ⟨1, rfl, one fun D x hd => ?_⟩
    rw [← (hext D x hd).2]
    exact Real.log_exp 1
  · next hs =>
    cases h
    refine ⟨0, rfl, zero fun D x hd => ?_⟩
    rw [(extends_of_symbols ha hs (.token_toDigits 1)).eval_eq_one hd]
    exact Real.log_one
  · next hs =>
    cases h
    have hext : (10 : Formula).Extends a := extends_of_symbols ha hs (.token_toDigits 10)
    refine ⟨1, rfl, one fun D x hd => ?_⟩
    rw [← (hext D x hd).2, eval_ten]
    exact Real.logb_self_eq_one (by norm_num)
  · next hs =>
    cases h
    refine ⟨0, rfl, zero fun D x hd => ?_⟩
    rw [(extends_of_symbols ha hs (.token_toDigits 1)).eval_eq_one hd]
    exact Real.logb_one
  · next hs =>
    cases h
    refine ⟨0, rfl, zero fun D x hd => ?_⟩
    rw [(extends_of_symbols ha hs (.token_toDigits 0)).eval_eq_zero hd]
    exact Real.sqrt_zero
  · exact absurd h nofun

theorem preserved_apply {f : NamedFunction} (ha : a.legible = true → a.Preserved)
    (h : (Formula.apply f a).legible = true) : (Formula.apply f a).Preserved := by
  have hprinted : (Formula.apply f a).printed = .apply f a.printed := rfl
  unfold Printed.apply at hprinted
  cases hknown : Printed.knownValue? f a.printed with
  | some value =>
    obtain ⟨n, hvalue, hext⟩ := extends_of_knownValue? ha hknown
    rw [hknown] at hprinted
    exact .of_ofNat (by rw [hprinted, hvalue]) hext
  | none =>
    rw [hknown] at hprinted
    rw [legible_apply, hknown] at h
    obtain ⟨c, hc, hspells⟩ := ha (by simpa using h)
    refine ⟨.apply f c, hc.apply f, ?_⟩
    rw [tokens, hprinted]
    simp only [List.map_append, List.map_cons]
    exact (Spells.function rfl (.brackets rfl rfl hspells)).lower (by decide)

/-- **The text of a legible formula stands for what the formula stands for.** -/
theorem PrintsBack.preserved (h : a.PrintsBack) (hl : a.legible = true) : a.Preserved := by
  induction a with
  | number v =>
    obtain ⟨hfinite, hback⟩ := h v (List.mem_singleton_self v)
    obtain ⟨w, hread, hsame⟩ := Binary64.exists_of_printsBack hback
    have hspells := Spells.token_numeral hread
    exact ⟨.number w, .number hsame, hspells.lower (by decide)⟩
  | var => exact ⟨.var, .refl _, (Spells.var rfl).lower (by decide)⟩
  | constant c => exact ⟨.constant c, .refl _, (Spells.constant rfl).lower (by decide)⟩
  | binary op a b iha ihb =>
    have ha := iha fun v hv => h v (List.mem_append_left _ hv)
    have hb := ihb fun v hv => h v (List.mem_append_right _ hv)
    cases op with
    | add => exact preserved_add ha hb hl
    | sub => exact preserved_sub ha hb hl
    | mul => exact preserved_mul ha hb hl
    | div => exact preserved_div ha hb hl
    | pow => exact preserved_pow ha hb hl
  | apply f a ih => exact preserved_apply (ih h) hl

end Formula

end Fluxion
