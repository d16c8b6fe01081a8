import Fluxion.Proofs.Collapsed

/-!
# Ranks that promise too much

An operand is put in brackets by its rank, and not by its text. In most formulas the rank tells how
tightly the text binds. Sums with a zero and negations are known exceptions. There are two more: a
quotient by one and a power to the one print as their left operand and keep a rank of their own,
where a product with one takes the rank of what it prints as. So `(x + x) / 1 * x` is printed as
`x + x * x`, which is another function (`Formula.ofText_text_quotient_by_one`).

There are no other exceptions. In a formula without sums with zero and without negations, a rank that
is wrong comes from a quotient by one or from a power to the one (`Formula.overrated`); and if no
operand that may need brackets is such, the text stands for what the formula stands for
(`Formula.PrintsBack.exists_ofText_text_extends_of_rank`).
-/

namespace Fluxion

namespace Formula

variable {a b c d : Formula}

/-! ### Operands and ranks -/

/-- A difference from zero or a sum with zero: the printer is known to take these for tighter than
they are. -/
def hasZero : Formula → Bool
  | .binary .add a b => a.text = "0" || b.text = "0"
  | .binary .sub a _ => a.text = "0"
  | _ => false

/-- A quotient or a power that prints as its left operand, and ranks above it. -/
def overrated : Formula → Bool
  | .binary .div a b => b.text = "1" && a.rank = .additive
  | .binary .pow a b => b.text = "1" && (a.rank = .additive || a.rank = .multiplicative)
  | _ => false

/-- The operands of the root that are put in brackets if their rank asks for it. -/
def bracketed : Formula → List Formula
  | .binary .add _ _ => []
  | .binary .sub _ b => [b]
  | .binary .mul a b | .binary .div a b | .binary .pow a b => [a, b]
  | _ => []

/-! ### Ranks that are right -/

theorem binds_one (a : Formula) : a.binds 1 = true :=
  List.all_eq_true.mpr fun op _ => decide_eq_true op.precedence_pos

theorem binds_mono {p q : Int} (h : a.binds q = true) (hp : p ≤ q) : a.binds p = true :=
  List.all_eq_true.mpr fun op hop =>
    decide_eq_true (Int.le_trans hp (of_decide_eq_true (List.all_eq_true.mp h op hop)))

theorem binds_of_symbols_eq {p : Int} (h : b.binds p = true)
    (heq : a.printed.symbols = b.printed.symbols) : a.binds p = true := by
  rwa [binds, outside, tokens, heq]

/-- A single symbol holds no operator between operands. -/
theorem binds_of_length {p : Int} (h : a.printed.symbols.length = 1) : a.binds p = true := by
  obtain ⟨s, hs⟩ := List.length_eq_one_iff.mp h
  have houtside : a.outside = [] := by
    rw [outside, tokens, hs]
    cases s <;> rfl
  rw [binds, houtside]
  rfl

theorem binds_of_spells {p : Int} (h : Spells p a.tokens c) : a.binds p = true :=
  List.all_eq_true.mpr fun op hop => decide_eq_true (h.le_of_mem_outside op hop)

/-- Two operands that are both printed hold no operator that binds less tightly than the one between
them. -/
theorem binds_of_joined {op : Operator} {q : Int} {left right : List Symbol} {rank : Rank}
    (hprinted : (Formula.binary op a b).printed = .joined op left right rank)
    (hl : Spells op.precedence (left.map Symbol.token) c) (hr : Spells q (right.map Symbol.token) d)
    (hq : op.precedence ≤ q) : (Formula.binary op a b).binds op.precedence = true := by
  have htoken : (Symbol.token (.operator op)).kind = .operator op := rfl
  refine List.all_eq_true.mpr fun o ho => decide_eq_true ?_
  rw [outside, tokens, hprinted, Printed.joined, List.map_append, List.map_cons,
    hl.outside_infixed htoken] at ho
  rcases List.mem_append.mp ho with ho | ho
  · exact hl.le_of_mem_outside o ho
  · rcases List.mem_cons.mp ho with rfl | ho
    · exact Int.le_refl _
    · exact Int.le_trans hq (hr.le_of_mem_outside o ho)

/-- The brackets written between two ranks are all that an operand needs whose rank is right, if each
rank gets brackets or binds tightly enough. -/
theorem fits_of_rank {low high : Rank} {p : Int} (h : a.binds a.rank.binding = true)
    (hrank : ∀ r : Rank, low.level < r.level ∧ r.level < high.level ∨ p ≤ r.binding) :
    a.fits low high p = true := by
  unfold fits Printed.between
  rw [Bool.or_eq_true]
  split
  · have hne : Symbol.openBracket :: a.printed.symbols ++ [.closeBracket] ≠ a.printed.symbols := by
      intro heq
      have hlength := congrArg List.length heq
      simp only [List.length_append, List.length_cons] at hlength
      omega
    exact .inl (decide_eq_true hne)
  · next hout => exact .inr (binds_mono h ((hrank a.rank).resolve_left hout))

/-- Two operands that fit into their places hold no operator that binds less tightly than the one
between them. -/
theorem binds_of_fits {op : Operator} {low high low' high' : Rank} {q : Int} {rank : Rank}
    (ha : a.Preserved) (hb : b.Preserved)
    (hprinted : (Formula.binary op a b).printed =
      .joined op (a.printed.between low high) (b.printed.between low' high') rank)
    (hrank : rank.binding = op.precedence) (hfa : a.fits low high op.precedence = true)
    (hfb : b.fits low' high' q = true) (hle : op.precedence ≤ q) (hq : q ≤ 4) :
    (Formula.binary op a b).binds (Formula.binary op a b).rank.binding = true := by
  obtain ⟨c, -, hc⟩ := ha
  obtain ⟨d, -, hd⟩ := hb
  have hbinding : (Formula.binary op a b).rank.binding = op.precedence := by
    rw [Formula.rank, hprinted]
    exact hrank
  rw [hbinding]
  exact binds_of_joined hprinted (spells_of_fits hc (Int.le_trans hle hq) hfa)
    (spells_of_fits hd hq hfb) hle

/-! ### Formulas by their operators -/

/-- A formula is legible, and its rank is right or known to be wrong. -/
structure IsRated (a : Formula) : Prop where
  legible : a.legible = true
  binds : a.overrated = false → a.binds a.rank.binding = true

theorem isRated_sub (pa : a.PrintsBack) (ha : a.IsRated) (hb : b.IsRated) (hza : a.text ≠ "0")
    (hob : b.overrated = false) : (binary .sub a b).IsRated := by
  rw [Ne, ← pa.isFinite.isZero_iff] at hza
  have hprinted : (binary .sub a b).printed = a.printed.sub b.printed := rfl
  rw [Printed.sub, if_neg hza] at hprinted
  have hfits : b.fits .atom .function 2 = true :=
    fits_of_rank (hb.binds hob) fun r => by cases r <;> decide
  constructor
  · simp only [legible_sub, if_neg hza, ha.legible, hb.legible, hfits, Bool.and_self, ite_self]
  · intro _
    have hrank : (binary .sub a b).rank = .additive := by
      rw [rank, hprinted]
      split <;> rfl
    rw [hrank]
    exact binds_one _

section

variable (pa : a.PrintsBack) (pb : b.PrintsBack) (ha : a.IsRated) (hb : b.IsRated)
include pa pb ha hb

theorem isRated_add (hza : a.text ≠ "0") (hzb : b.text ≠ "0") : (binary .add a b).IsRated := by
  rw [Ne, ← pa.isFinite.isZero_iff] at hza
  rw [Ne, ← pb.isFinite.isZero_iff] at hzb
  have hprinted : (binary .add a b).printed = a.printed.add b.printed := rfl
  rw [Printed.add, if_neg hza, if_neg hzb] at hprinted
  constructor
  · rw [legible_add, if_neg hza, if_neg hzb, ha.legible, hb.legible]
    rfl
  · intro _
    rw [rank, hprinted]
    exact binds_one _

variable (hoa : a.overrated = false) (hob : b.overrated = false)
include hoa hob

theorem isRated_mul : (binary .mul a b).IsRated := by
  have hprinted : (binary .mul a b).printed = a.printed.mul b.printed := rfl
  have hleft : a.fits .atom .multiplicative 2 = true :=
    fits_of_rank (ha.binds hoa) fun r => by cases r <;> decide
  have hright : b.fits .atom .power 2 = true :=
    fits_of_rank (hb.binds hob) fun r => by cases r <;> decide
  constructor
  · simp only [legible_mul, ha.legible, hb.legible, hleft, hright, Bool.and_self, ite_self]
  · intro _
    unfold Printed.mul at hprinted
    split_ifs at hprinted
    · exact binds_of_length (by rw [hprinted]; rfl)
    · rw [rank, hprinted]
      exact binds_of_symbols_eq (hb.binds hob) (by rw [hprinted])
    · rw [rank, hprinted]
      exact binds_of_symbols_eq (ha.binds hoa) (by rw [hprinted])
    · exact binds_of_fits (pa.preserved ha.legible) (pb.preserved hb.legible) hprinted rfl hleft
        hright (Int.le_refl 2) (by decide)

theorem isRated_div : (binary .div a b).IsRated := by
  have hprinted : (binary .div a b).printed = a.printed.div b.printed := rfl
  have hleft : a.fits .negation .multiplicative 2 = true :=
    fits_of_rank (ha.binds hoa) fun r => by cases r <;> decide
  have hright : b.fits .atom .power 3 = true :=
    fits_of_rank (hb.binds hob) fun r => by cases r <;> decide
  constructor
  · simp only [legible_div, ha.legible, hb.legible, hleft, hright, Bool.and_self, ite_self]
  · intro hover
    unfold Printed.div at hprinted
    split_ifs at hprinted with hz
    · rcases Bool.or_eq_true_iff.mp hz with hz | hone
      · refine binds_of_length ?_
        rw [hprinted, a.printed.isZero_iff.mp hz]
        rfl
      · -- a dividend that is left alone ranks as a sum, or binds tightly enough
        have hadditive : a.rank ≠ .additive := by
          simpa [overrated, pb.isFinite.isOne_iff.mp hone] using hover
        have hle : 2 ≤ a.rank.binding := by
          revert hadditive
          cases a.rank <;> decide
        rw [rank, hprinted]
        exact binds_of_symbols_eq (binds_mono (ha.binds hoa) hle) (by rw [hprinted])
    · exact binds_of_fits (pa.preserved ha.legible) (pb.preserved hb.legible) hprinted rfl hleft
        hright (by decide) (by decide)

theorem isRated_pow : (binary .pow a b).IsRated := by
  have hprinted : (binary .pow a b).printed = a.printed.pow b.printed := rfl
  have hleft : a.fits .atom .power 3 = true :=
    fits_of_rank (ha.binds hoa) fun r => by cases r <;> decide
  have hright : b.fits .atom .function 4 = true :=
    fits_of_rank (hb.binds hob) fun r => by cases r <;> decide
  constructor
  · simp only [legible_pow, ha.legible, hb.legible, hleft, hright, Bool.and_self, ite_self]
  · intro hover
    unfold Printed.pow at hprinted
    split_ifs at hprinted with hone hzero hbase
    · have hloose : a.rank ≠ .additive ∧ a.rank ≠ .multiplicative := by
        simpa [overrated, pb.isFinite.isOne_iff.mp hone] using hover
      have hle : 3 ≤ a.rank.binding := by
        revert hloose
        cases a.rank <;> decide
      rw [rank, hprinted]
      exact binds_of_symbols_eq (binds_mono (ha.binds hoa) hle) (by rw [hprinted])
    · exact binds_of_length (by rw [hprinted]; rfl)
    · refine binds_of_length ?_
      rw [hprinted, a.printed.isZero_iff.mp hbase]
      rfl
    · exact binds_of_fits (pa.preserved ha.legible) (pb.preserved hb.legible) hprinted rfl hleft
        hright (by decide) (by decide)

end

theorem isRated_apply (f : NamedFunction) (pa : a.PrintsBack) (ha : a.IsRated) :
    (apply f a).IsRated := by
  have hprinted : (apply f a).printed = .apply f a.printed := rfl
  unfold Printed.apply at hprinted
  constructor
  · rw [legible_apply, ha.legible, Bool.or_true]
  · intro _
    split at hprinted
    · next value hknown =>
      refine binds_of_length ?_
      rcases Printed.eq_zero_or_one_of_knownValue? hknown with rfl | rfl <;> rw [hprinted] <;> rfl
    · obtain ⟨c, -, hspells⟩ := pa.preserved ha.legible
      have hfunction : Spells 4 (apply f a).tokens (.apply f c) := by
        rw [tokens, hprinted]
        simp only [List.map_append, List.map_cons]
        exact .function rfl (.brackets rfl rfl hspells)
      rw [rank, hprinted]
      exact binds_of_spells hfunction

/-! ### Whole formulas -/

/-- Where no operand that may need brackets is overrated, every rank is right or known to be wrong,
so each operand has the brackets that it needs. -/
theorem PrintsBack.isRated (h : a.PrintsBack) (hzero : ∀ b ∈ a.postorder, b.hasZero = false)
    (hrank : ∀ b ∈ a.postorder, ∀ c ∈ b.bracketed, c.overrated = false) : a.IsRated := by
  induction a with
  | number | var | constant => exact ⟨rfl, fun _ => binds_of_length rfl⟩
  | binary op a b iha ihb =>
    have pa : a.PrintsBack := fun v hv => h v (List.mem_append_left _ hv)
    have pb : b.PrintsBack := fun v hv => h v (List.mem_append_right _ hv)
    simp only [postorder, List.mem_append, List.mem_singleton] at hzero hrank
    have ha := iha pa (fun c hc => hzero c (.inl (.inl hc))) fun c hc => hrank c (.inl (.inl hc))
    have hb := ihb pb (fun c hc => hzero c (.inl (.inr hc))) fun c hc => hrank c (.inl (.inr hc))
    have hroot := hzero _ (.inr rfl)
    have hoperands := hrank _ (.inr rfl)
    cases op with
    | add =>
      simp only [hasZero, Bool.or_eq_false_iff, decide_eq_false_iff_not] at hroot
      exact isRated_add pa pb ha hb hroot.1 hroot.2
    | sub =>
      simp only [hasZero, decide_eq_false_iff_not] at hroot
      exact isRated_sub pa ha hb hroot (hoperands b (by simp [bracketed]))
    | mul =>
      exact isRated_mul pa pb ha hb (hoperands a (by simp [bracketed]))
        (hoperands b (by simp [bracketed]))
    | div =>
      exact isRated_div pa pb ha hb (hoperands a (by simp [bracketed]))
        (hoperands b (by simp [bracketed]))
    | pow =>
      exact isRated_pow pa pb ha hb (hoperands a (by simp [bracketed]))
        (hoperands b (by simp [bracketed]))
  | apply f a ih =>
    simp only [postorder, List.mem_append, List.mem_singleton] at hzero hrank
    exact isRated_apply f h (ih h (fun c hc => hzero c (.inl hc)) fun c hc => hrank c (.inl hc))

/-- **Printing keeps the value where ranks are right**: without negations and sums with zero, and
without overrated operands where brackets may be needed, the text is read as a formula that is
defined wherever the printed one is, with the same values. -/
theorem PrintsBack.exists_ofText_text_extends_of_rank (h : a.PrintsBack)
    (hzero : ∀ b ∈ a.postorder, b.hasZero = false)
    (hrank : ∀ b ∈ a.postorder, ∀ c ∈ b.bracketed, c.overrated = false) :
    ∃ b, ofText a.text = .ok b ∧ ∀ D x, a.DefinedAt D x → b.DefinedAt D x ∧ b.eval x = a.eval x :=
  h.exists_ofText_text_extends (h.isRated hzero hrank).legible

/-- A product may print without its divisor and its exponent of one. -/
theorem PrintsBack.exists_ofText_text_extends_of_rank_product :
    let a : Formula := .var * .constant .e / 1 * .var ^ (1 : Formula)
    a.PrintsBack ∧ (∀ b ∈ a.postorder, b.hasZero = false) ∧
      (∀ b ∈ a.postorder, ∀ c ∈ b.bracketed, c.overrated = false) ∧
      ∃ b, ofText a.text = .ok b ∧
        ∀ D x, a.DefinedAt D x → b.DefinedAt D x ∧ b.eval x = a.eval x := by
  intro a
  have hback : a.PrintsBack := .of_ruleNumbers (by decide +kernel)
  have hzero : ∀ b ∈ a.postorder, b.hasZero = false := by decide +kernel
  have hrank : ∀ b ∈ a.postorder, ∀ c ∈ b.bracketed, c.overrated = false := by decide +kernel
  exact ⟨hback, hzero, hrank, hback.exists_ofText_text_extends_of_rank hzero hrank⟩

/-- A quotient by one and a power to the one keep a rank that is not that of their text: a product
with such a sum is printed without brackets, and is read as another function. -/
theorem ofText_text_quotient_by_one :
    let sum : Formula := .var + .var
    ∀ a ∈ [sum / 1 * .var, sum ^ (1 : Formula) * .var],
      a.PrintsBack ∧ (∀ b ∈ a.postorder, b.hasZero = false) ∧ a.text = "x + x * x" ∧
      a.DefinedAt .strict 2 ∧ a.eval 2 = 8 ∧ ∃ b, ofText a.text = .ok b ∧ b.eval 2 = 6 := by
  intro sum a ha
  have hread : ofText "x + x * x" = .ok (.var + .var * .var) := by rfl
  have heval : (.var + .var * .var : Formula).eval 2 = 6 := by
    simp only [eval_add, eval_mul, eval_var]
    norm_num
  have hback : a.PrintsBack := by
    rcases List.mem_pair.mp ha with rfl | rfl <;> exact .of_ruleNumbers (by decide +kernel)
  have htext : a.text = "x + x * x" := by
    rcases List.mem_pair.mp ha with rfl | rfl <;> decide +kernel
  have hzero : ∀ b ∈ a.postorder, b.hasZero = false := by
    rcases List.mem_pair.mp ha with rfl | rfl <;> decide +kernel
  refine ⟨hback, hzero, htext, ?_, ?_, _, htext ▸ hread, heval⟩
  · have hsum : sum.DefinedAt .strict 2 := ⟨trivial, trivial, trivial⟩
    rcases List.mem_pair.mp ha with rfl | rfl
    · have hone : (1 : Formula).eval 2 ≠ 0 := by
        rw [eval_one]
        exact one_ne_zero
      exact ⟨⟨hsum, definedAt_one, hone⟩, trivial, trivial⟩
    · have hpos : 0 < sum.eval 2 := by
        simp only [sum, eval_add, eval_var]
        norm_num
      exact ⟨⟨hsum, definedAt_one, hpos⟩, trivial, trivial⟩
  · rcases List.mem_pair.mp ha with rfl | rfl
    · simp only [sum, eval_mul, eval_div, eval_add, eval_var, eval_one]
      norm_num
    · simp only [sum, eval_mul, eval_pow, eval_add, eval_var, eval_one]
      norm_num

end Formula

end Fluxion
