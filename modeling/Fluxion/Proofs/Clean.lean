import Fluxion.Proofs.Readable

/-!
# Formulas that print as they are

Printing leaves out zeros and ones, and some brackets that would be needed. A formula is clean
(`Formula.Clean`) if it gives no occasion for either. The rank of a clean formula is the one that its
root suggests, and tells how tightly its text binds; so each pair of ranks between which the printer
writes brackets can be compared with the level of the grammar that stands there
(`spells_between`), and reading the text gives back the very formula (`Formula.Clean.ofText_text`).
-/

namespace Fluxion

/-! ### Clean formulas -/

namespace Formula

/-- The rank that the root of a formula suggests. A difference from zero is a negation. -/
def shape : Formula → Rank
  | .number _ | .var | .constant _ => .atom
  | .binary .add _ _ => .additive
  | .binary .sub a _ => if a = 0 then .negation else .additive
  | .binary .mul _ _ | .binary .div _ _ => .multiplicative
  | .binary .pow _ _ => .power
  | .apply _ _ => .function

/-- Operands that print in full: no zero and no one is left out, the right operand of a sum is no
sum and no proper difference, and only what is no operator itself is negated. -/
def CleanOperands (a b : Formula) : Operator → Prop
  | .add => a ≠ 0 ∧ b ≠ 0 ∧ b.shape ≠ .additive
  | .sub => b ≠ 0 ∧ (a = 0 → b.shape = .atom ∨ b.shape = .negation ∨ b.shape = .function)
  | .mul => a ≠ 0 ∧ a ≠ 1 ∧ b ≠ 0 ∧ b ≠ 1
  | .div => a ≠ 0 ∧ b ≠ 1
  | .pow => b ≠ 0 ∧ b ≠ 1 ∧ a ≠ 0

/-- An argument of which the function is not known to be a whole number. -/
def CleanArgument (a : Formula) : NamedFunction → Prop
  | .ln => a ≠ .constant .e ∧ a ≠ 1
  | .lg => a ≠ 10 ∧ a ≠ 1
  | .sqrt => a ≠ 0
  | .sin | .cos | .tan | .cot => True

/-- A formula with exact numbers, in which nothing is left out when it is printed. -/
def Clean : Formula → Prop
  | .number v => v.IsUnsigned ∧ v.printsBack = true
  | .var | .constant _ => True
  | .binary op a b => a.Clean ∧ b.Clean ∧ a.CleanOperands b op
  | .apply f a => a.Clean ∧ a.CleanArgument f

theorem clean_ofNat {n : Nat} (h : n < 0x20000000000000) : (OfNat.ofNat n : Formula).Clean :=
  ⟨Binary64.isUnsigned_ofNat h, Binary64.printsBack_ofNat h⟩

theorem Clean.isUnsigned {a : Formula} (h : a.Clean) : a.IsUnsigned := by
  induction a with
  | number v =>
    intro w hw
    obtain rfl := List.mem_singleton.mp hw
    exact h.1
  | var | constant => exact nofun
  | binary op a b iha ihb =>
    intro v hv
    rcases List.mem_append.mp hv with hv | hv
    · exact iha h.1 v hv
    · exact ihb h.2.1 v hv
  | apply f a ih => exact ih h.1

end Formula

/-! ### Ranks and levels -/

/-- The level at which the text of a clean formula is spelled, by its rank. -/
def Rank.binding : Rank → Int
  | .additive => 1
  | .multiplicative => 2
  | .power => 3
  | .atom | .negation | .function => 4

theorem Rank.one_le_binding (r : Rank) : 1 ≤ r.binding := by
  cases r <;> decide

/-- The brackets written between two ranks are all that a level needs, if each rank gets brackets
or binds tightly enough. -/
theorem spells_between {p : Int} {low high : Rank} {a : Printed} {t : Formula}
    (h : Spells a.rank.binding (a.symbols.map Symbol.token) t) (hp : p ≤ 4)
    (hrank : ∀ r : Rank, low.level < r.level ∧ r.level < high.level ∨ p ≤ r.binding) :
    Spells p ((a.between low high).map Symbol.token) t := by
  unfold Printed.between
  split
  · rw [List.map_append]
    exact (Spells.brackets rfl rfl (h.lower a.rank.one_le_binding)).lower hp
  · next hout => exact h.lower ((hrank a.rank).resolve_left hout)

namespace Formula

/-- What printing makes of a clean formula: its text is spelled at the level of its rank, the rank is
the one its root suggests, and only leaves print as single symbols. -/
structure IsFaithful (a : Formula) : Prop where
  spells : Spells a.rank.binding (a.printed.symbols.map Symbol.token) a
  rank_eq : a.rank = a.shape
  long : a.children ≠ [] → 1 < a.printed.symbols.length

namespace IsFaithful

variable {a b : Formula}

theorem children_eq_nil (h : a.IsFaithful) {s : Symbol} (hs : a.printed.symbols = [s]) :
    a.children = [] := by
  by_contra hne
  have := h.long hne
  simp [hs] at this

/-- Only a number prints as a number. -/
theorem eq_ofNat (h : a.IsFaithful) (hclean : a.Clean) {n : Nat}
    (hs : a.printed.symbols = [.numeral (Nat.toDigits 10 n)]) : a = .number (.ofNat n) := by
  have hleaf := h.children_eq_nil hs
  cases a with
  | number v =>
    have htext : v.toList = Nat.toDigits 10 n := by simpa [printed, Printed.numeral] using hs
    rw [hclean.1.eq_ofNat hclean.2 htext]
  | var | constant => simp [printed] at hs
  | binary | apply => exact absurd hleaf (List.cons_ne_nil _ _)

/-- Only a constant prints as a constant. -/
theorem eq_constant (h : a.IsFaithful) {c : Constant} (hs : a.printed.symbols = [.constant c]) :
    a = .constant c := by
  have hleaf := h.children_eq_nil hs
  cases a with
  | constant d => simpa [printed] using hs
  | number | var => simp [printed, Printed.numeral] at hs
  | binary | apply => exact absurd hleaf (List.cons_ne_nil _ _)

theorem isZero_eq_false (h : a.IsFaithful) (hclean : a.Clean) (hne : a ≠ 0) :
    a.printed.isZero = false := by
  rw [← Bool.not_eq_true, Printed.isZero_iff]
  exact fun hs => hne (h.eq_ofNat hclean (n := 0) hs)

theorem isOne_eq_false (h : a.IsFaithful) (hclean : a.Clean) (hne : a ≠ 1) :
    a.printed.isOne = false := by
  rw [← Bool.not_eq_true, Printed.isOne_iff]
  exact fun hs => hne (h.eq_ofNat hclean (n := 1) hs)

/-- Two operands of which nothing is left out. -/
theorem joined {op : Operator} {left right : List Symbol} {rank : Rank}
    (hprinted : (Formula.binary op a b).printed = .joined op left right rank)
    (hbinding : rank.binding = op.precedence) (hshape : rank = (Formula.binary op a b).shape)
    (hl : Spells op.precedence (left.map Symbol.token) a)
    (hr : Spells (op.precedence + 1) (right.map Symbol.token) b) :
    (Formula.binary op a b).IsFaithful := by
  refine ⟨?_, ?_, fun _ => ?_⟩
  · rw [Formula.rank, hprinted]
    simp only [Printed.joined, hbinding, List.map_append, List.map_cons]
    exact .infixed rfl hl hr
  · rw [Formula.rank, hprinted, ← hshape]
    rfl
  · rw [hprinted]
    have hl := List.length_pos_of_ne_nil hl.ne_nil
    have hr := List.length_pos_of_ne_nil hr.ne_nil
    simp only [List.length_map] at hl hr
    simp only [Printed.joined, List.length_append, List.length_cons]
    omega

end IsFaithful

theorem Clean.isFaithful_binary {op : Operator} {a b : Formula} (ha : a.Clean) (hb : b.Clean)
    (hop : a.CleanOperands b op) (fa : a.IsFaithful) (fb : b.IsFaithful) :
    (Formula.binary op a b).IsFaithful := by
  cases op with
  | add =>
    obtain ⟨ha0, hb0, hshape⟩ := hop
    have hprinted : (Formula.binary .add a b).printed =
        .joined .add a.printed.symbols b.printed.symbols .additive := by
      simp [printed, Printed.binary, Printed.add, fa.isZero_eq_false ha ha0,
        fb.isZero_eq_false hb hb0]
    refine .joined hprinted rfl rfl (fa.spells.lower (Rank.one_le_binding _)) (fb.spells.lower ?_)
    rw [fb.rank_eq]
    revert hshape
    cases b.shape <;> decide
  | sub =>
    obtain ⟨hb0, hshape⟩ := hop
    by_cases ha0 : a = 0
    · -- a negation: the minus takes the whole operand
      have hzero : a.printed.isZero = true := by
        rw [ha0, Printed.isZero_iff, ofNat_def, printed, Binary64.toList_ofNat (by decide)]
        rfl
      have hprinted : (Formula.binary .sub a b).printed = ⟨.minus :: b.printed.symbols, .negation⟩ := by
        simp [printed, Printed.binary, Printed.sub, hzero, fb.isZero_eq_false hb hb0]
      have hfour : b.rank.binding = 4 := by
        rw [fb.rank_eq]
        rcases hshape ha0 with h | h | h <;> rw [h] <;> rfl
      refine ⟨?_, ?_, fun _ => ?_⟩
      · rw [Formula.rank, hprinted, ha0]
        exact .minus rfl (hfour ▸ fb.spells)
      · rw [Formula.rank, hprinted, shape, if_pos ha0]
      · rw [hprinted]
        have := List.length_pos_of_ne_nil fb.spells.ne_nil
        simpa using this
    · have hprinted : (Formula.binary .sub a b).printed =
          .joined .sub a.printed.symbols (b.printed.between .atom .function) .additive := by
        simp [printed, Printed.binary, Printed.sub, fa.isZero_eq_false ha ha0,
          fb.isZero_eq_false hb hb0]
      refine .joined hprinted rfl (by rw [shape, if_neg ha0])
        (fa.spells.lower (Rank.one_le_binding _)) (spells_between fb.spells (by decide) ?_)
      intro r
      cases r <;> decide
  | mul =>
    obtain ⟨ha0, ha1, hb0, hb1⟩ := hop
    have hprinted : (Formula.binary .mul a b).printed =
        .joined .mul (a.printed.between .atom .multiplicative) (b.printed.between .atom .power)
          .multiplicative := by
      simp [printed, Printed.binary, Printed.mul, fa.isZero_eq_false ha ha0,
        fb.isZero_eq_false hb hb0, fa.isOne_eq_false ha ha1, fb.isOne_eq_false hb hb1]
    refine .joined hprinted rfl rfl (spells_between fa.spells (by decide) ?_)
      (spells_between fb.spells (by decide) ?_) <;>
    · intro r
      cases r <;> decide
  | div =>
    obtain ⟨ha0, hb1⟩ := hop
    have hprinted : (Formula.binary .div a b).printed =
        .joined .div (a.printed.between .negation .multiplicative) (b.printed.between .atom .power)
          .multiplicative := by
      simp [printed, Printed.binary, Printed.div, fa.isZero_eq_false ha ha0,
        fb.isOne_eq_false hb hb1]
    refine .joined hprinted rfl rfl (spells_between fa.spells (by decide) ?_)
      (spells_between fb.spells (by decide) ?_) <;>
    · intro r
      cases r <;> decide
  | pow =>
    obtain ⟨hb0, hb1, ha0⟩ := hop
    have hprinted : (Formula.binary .pow a b).printed =
        .joined .pow (a.printed.between .atom .power) (b.printed.between .atom .function)
          .power := by
      simp [printed, Printed.binary, Printed.pow, fa.isZero_eq_false ha ha0,
        fb.isZero_eq_false hb hb0, fb.isOne_eq_false hb hb1]
    refine .joined hprinted rfl rfl (spells_between fa.spells (by decide) ?_)
      (spells_between fb.spells (by decide) ?_) <;>
    · intro r
      cases r <;> decide

theorem Clean.isFaithful_apply {f : NamedFunction} {a : Formula} (ha : a.Clean)
    (hf : a.CleanArgument f) (fa : a.IsFaithful) : (Formula.apply f a).IsFaithful := by
  have hknown : Printed.knownValue? f a.printed = none := by
    unfold Printed.knownValue?
    split
    · next hs => exact absurd (fa.eq_constant hs) hf.1
    · next hs => exact absurd (fa.eq_ofNat ha (n := 1) hs) hf.2
    · next hs => exact absurd (fa.eq_ofNat ha (n := 10) hs) hf.1
    · next hs => exact absurd (fa.eq_ofNat ha (n := 1) hs) hf.2
    · next hs => exact absurd (fa.eq_ofNat ha (n := 0) hs) hf
    · rfl
  have hprinted : (Formula.apply f a).printed =
      ⟨.function f :: .openBracket :: a.printed.symbols ++ [.closeBracket], .function⟩ := by
    rw [printed, Printed.apply, hknown]
  refine ⟨?_, ?_, fun _ => ?_⟩
  · rw [Formula.rank, hprinted]
    simp only [List.map_append, List.map_cons]
    exact .function rfl (.brackets rfl rfl (fa.spells.lower (Rank.one_le_binding _)))
  · rw [Formula.rank, hprinted]
    rfl
  · rw [hprinted]
    simp

/-- A clean formula is printed faithfully. -/
theorem Clean.isFaithful {a : Formula} (h : a.Clean) : a.IsFaithful := by
  induction a with
  | number v =>
    exact ⟨.token_numeral (h.1.printsBack_iff.mp h.2), rfl, absurd rfl⟩
  | var => exact ⟨.var rfl, rfl, absurd rfl⟩
  | constant c => exact ⟨.constant rfl, rfl, absurd rfl⟩
  | binary op a b iha ihb => exact h.1.isFaithful_binary h.2.1 h.2.2 (iha h.1) (ihb h.2.1)
  | apply f a ih => exact h.1.isFaithful_apply h.2 (ih h.1)

/-- A clean formula is read from its own text. -/
theorem Clean.ofText_eq {a : Formula} (h : a.Clean) : ofText a.text = .ok a :=
  ofText_symbols (fun _ => isNumeral_of_mem_printed h.isUnsigned)
    (h.isFaithful.spells.lower (Rank.one_le_binding _))

/-- **Printing and reading are inverse on clean formulas**: the text of a clean formula is read as
the formula itself, with the same ranks, and so prints as the same text. -/
theorem Clean.ofText_text {a : Formula} (h : a.Clean) :
    ∃ b, ofText a.text = .ok b ∧ b = a ∧ b.ranks = a.ranks ∧ b.text = a.text :=
  ⟨a, h.ofText_eq, rfl, rfl, rfl⟩

theorem Clean.ofText_text_product :
    let a : Formula := 2 * (.var - -.apply .sin .var)
    a.Clean ∧ ∃ b, ofText a.text = .ok b ∧ b = a ∧ b.ranks = a.ranks ∧ b.text = a.text := by
  have htwo : (2 : Formula).Clean := clean_ofNat (by decide)
  have hzero : (0 : Formula).Clean := clean_ofNat (by decide)
  have hneg : (-.apply .sin .var : Formula).Clean :=
    ⟨hzero, ⟨trivial, trivial⟩, by decide, fun _ => .inr (.inr rfl)⟩
  have hclean : (2 * (.var - -.apply .sin .var) : Formula).Clean :=
    ⟨htwo, ⟨trivial, hneg, by decide, fun h => absurd h (by decide)⟩,
      by decide +kernel, by decide +kernel, by decide, by decide⟩
  exact ⟨hclean, hclean.ofText_text⟩

end Formula

end Fluxion
