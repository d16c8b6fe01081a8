import Fluxion.Proofs.Grammar
import Fluxion.Proofs.Meaning

/-!
# Operands without brackets

When two texts are joined by an operator and neither is put in brackets, what they spell together
need not be the operator between what each of them spells. But it can stand for the same function.
A sum or difference on the right of a plus, and a product or quotient on the right of a times, are
taken apart without harm (`Spells.regroup`). A minus in front of a product only reaches its first
factor, and the sign comes out the same (`Spells.minus_regroup`); in front of a sum or of a power it
would not. So what matters of a text is which operators stand in it outside brackets
(`Token.outside`).
-/

namespace Fluxion

/-! ### Formulas that stand for the same -/

namespace Formula

/-- One formula is defined wherever another one is, and has the same value there. -/
def Extends (a b : Formula) : Prop :=
  ∀ (D : Domain) (x : ℝ), b.DefinedAt D x → a.DefinedAt D x ∧ a.eval x = b.eval x

namespace Extends

variable {a b c a' b' : Formula}

theorem refl (a : Formula) : a.Extends a := fun _ _ h => ⟨h, rfl⟩

theorem trans (h : a.Extends b) (h' : b.Extends c) : a.Extends c := by
  intro D x hc
  obtain ⟨hb, heq'⟩ := h' D x hc
  obtain ⟨ha, heq⟩ := h D x hb
  exact ⟨ha, heq.trans heq'⟩

/-- Numbers of the same value stand for the same. -/
theorem number {v w : Binary64} (h : v.sameValue w = true) :
    (Formula.number v).Extends (.number w) := by
  intro D x hw
  refine ⟨?_, Binary64.toReal_eq_of_sameValue h⟩
  cases v with
  | finite => rfl
  | infinite | nan =>
    cases w with
    | finite => exact absurd h Bool.false_ne_true
    | infinite | nan => exact absurd hw Bool.false_ne_true

theorem binary (op : Operator) (ha : a.Extends a') (hb : b.Extends b') :
    (Formula.binary op a b).Extends (.binary op a' b') := by
  intro D x ⟨hda, hdb, hop⟩
  obtain ⟨ha, heqa⟩ := ha D x hda
  obtain ⟨hb, heqb⟩ := hb D x hdb
  refine ⟨⟨ha, hb, ?_⟩, ?_⟩
  · rwa [heqa, heqb]
  · rw [eval, eval, heqa, heqb]

theorem apply (f : NamedFunction) (ha : a.Extends a') :
    (Formula.apply f a).Extends (.apply f a') := by
  intro D x ⟨hda, hf⟩
  obtain ⟨ha, heq⟩ := ha D x hda
  refine ⟨⟨ha, ?_⟩, ?_⟩
  · rwa [heq]
  · rw [eval_apply, eval_apply, heq]

/-- An operator on the right of a sum or a product, and of its level, can be taken out. -/
theorem regroup {op op' : Operator} (hop : op = .add ∨ op = .mul)
    (hlevel : op'.precedence = op.precedence) :
    (Formula.binary op' (.binary op a b) c).Extends (.binary op a (.binary op' b c)) := by
  intro D x ⟨ha, ⟨hb, hc, hop'⟩, _⟩
  rcases hop with rfl | rfl
  · cases op' with
    | add => exact ⟨⟨⟨ha, hb, trivial⟩, hc, trivial⟩, add_assoc _ _ _⟩
    | sub => exact ⟨⟨⟨ha, hb, trivial⟩, hc, trivial⟩, add_sub_assoc _ _ _⟩
    | mul | div | pow => exact absurd hlevel (by decide)
  · cases op' with
    | mul => exact ⟨⟨⟨ha, hb, trivial⟩, hc, trivial⟩, mul_assoc _ _ _⟩
    | div => exact ⟨⟨⟨ha, hb, trivial⟩, hc, hop'⟩, mul_div_assoc _ _ _⟩
    | add | sub | pow => exact absurd hlevel (by decide)

/-- The sign of a product or quotient is that of its first factor. -/
theorem neg_binary {op : Operator} (hop : op = .mul ∨ op = .div) (ha : a'.Extends (-a)) :
    (Formula.binary op a' b).Extends (-.binary op a b) := by
  intro D x hdefined
  obtain ⟨hda, hdb, hop'⟩ := definedAt_neg.mp hdefined
  obtain ⟨hda', heq⟩ := ha D x (definedAt_neg.mpr hda)
  rw [eval_neg] at heq ⊢
  rcases hop with rfl | rfl
  · refine ⟨⟨hda', hdb, trivial⟩, ?_⟩
    simp only [eval, Operator.eval, heq, neg_mul]
  · refine ⟨⟨hda', hdb, hop'⟩, ?_⟩
    simp only [eval, Operator.eval, heq, neg_div]

end Extends

end Formula

/-! ### Operators outside brackets -/

namespace Token

/-- The operators between operands that stand outside all brackets. What was read before says how
many brackets are open and whether an operand has just ended, since otherwise a minus stands in
front of an operand. -/
def outsideFrom : Nat → Bool → List Token → List Operator
  | _, _, [] => []
  | depth, operand, token :: rest =>
    match token.kind with
    | .openBracket => outsideFrom (depth + 1) false rest
    | .closeBracket => outsideFrom (depth - 1) true rest
    | .function _ => outsideFrom depth false rest
    | .operator op =>
      if operand && depth == 0 then op :: outsideFrom depth false rest
      else outsideFrom depth false rest
    | _ => outsideFrom depth true rest

/-- The operators of a text that stand outside its brackets. -/
def outside (tokens : List Token) : List Operator := outsideFrom 0 false tokens

end Token

namespace Spells

open Token

variable {p q : Int} {tokens more left right : List Token} {token : Token} {op : Operator}
  {a b c : Formula}

/-- Behind tokens that spell a formula the brackets are closed and an operand has ended; and the
operators outside brackets bind at least as tightly as the level says. -/
theorem exists_outsideFrom (h : Spells p tokens a) :
    ∃ ops : List Operator, (∀ op ∈ ops, p ≤ op.precedence) ∧ ∀ depth rest,
      outsideFrom depth false (tokens ++ rest) =
        (if depth = 0 then ops else []) ++ outsideFrom depth true rest := by
  induction h with
  | numeral hk | var hk | constant hk =>
    refine ⟨[], nofun, fun depth rest => ?_⟩
    simp only [List.singleton_append, outsideFrom, hk, ite_self, List.nil_append]
  | brackets ho hc _ ih =>
    obtain ⟨ops, _, hops⟩ := ih
    refine ⟨[], nofun, fun depth rest => ?_⟩
    simp only [List.cons_append, List.append_assoc, List.nil_append, outsideFrom, ho, hops, hc,
      Nat.add_sub_cancel, Nat.succ_ne_zero, if_false, ite_self]
  | minus hk _ ih | function hk _ ih =>
    obtain ⟨ops, hle, hops⟩ := ih
    refine ⟨ops, hle, fun depth rest => ?_⟩
    simp only [List.cons_append, outsideFrom, hk, hops, Bool.false_and, Bool.false_eq_true, if_false]
  | @infixed token op left right a b hk _ _ iha ihb =>
    obtain ⟨ops, hle, hops⟩ := iha
    obtain ⟨ops', hle', hops'⟩ := ihb
    refine ⟨ops ++ op :: ops', fun o ho => ?_, fun depth rest => ?_⟩
    · rcases List.mem_append.mp ho with ho | ho
      · exact hle o ho
      · rcases List.mem_cons.mp ho with rfl | ho
        · exact Int.le_refl _
        · exact Int.le_trans (by omega) (hle' o ho)
    · rw [List.append_assoc, hops, List.cons_append, outsideFrom, hk]
      cases depth with
      | zero => simp [hops']
      | succ depth => simp [hops']
  | lift _ ih =>
    obtain ⟨ops, hle, hops⟩ := ih
    exact ⟨ops, fun o ho => Int.le_trans (by omega) (hle o ho), hops⟩

theorem outsideFrom_append (h : Spells p tokens a) (rest : List Token) :
    outsideFrom 0 false (tokens ++ rest) = outside tokens ++ outsideFrom 0 true rest := by
  obtain ⟨ops, _, hops⟩ := h.exists_outsideFrom
  have hself := hops 0 []
  simp only [List.append_nil, if_true, outsideFrom] at hself
  rw [hops, outside, hself, if_pos rfl]

theorem le_of_mem_outside (h : Spells p tokens a) : ∀ op ∈ outside tokens, p ≤ op.precedence := by
  obtain ⟨ops, hle, hops⟩ := h.exists_outsideFrom
  have hself := hops 0 []
  simp only [List.append_nil, if_true, outsideFrom] at hself
  rwa [outside, hself]

/-- The operators of two texts with an operator between them. -/
theorem outside_infixed (hl : Spells p left a) (hk : token.kind = .operator op) :
    outside (left ++ token :: right) = outside left ++ op :: outside right := by
  rw [outside, hl.outsideFrom_append, outsideFrom, hk]
  rfl

/-- The level of a text is set by the operators outside its brackets. -/
theorem raise (h : Spells q tokens a) (hp : p ≤ 4) (hle : ∀ op ∈ outside tokens, p ≤ op.precedence) :
    Spells p tokens a := by
  induction h using operandInduction with
  | operand h => exact h.lower hp
  | infixed hk hl hr _ _ =>
    rw [hl.outside_infixed hk] at hle
    exact (Spells.infixed hk hl hr).lower (hle _ (by simp))
  | lift _ ih => exact ih hle

/-- Tokens spell one formula at most. -/
theorem unique (h : Spells 1 tokens a) (h' : Spells 1 tokens b) : a = b :=
  Except.ok.inj (h.ofTokens_eq.symm.trans h'.ofTokens_eq)

/-! ### Taking apart the right operand -/

/-- Two texts joined by a plus or a times, where the right one may hold operators of that level. -/
theorem regroup (ha : Spells op.precedence tokens a) (hb : Spells q more b)
    (hop : op = .add ∨ op = .mul) (hq : op.precedence ≤ q) (hk : token.kind = .operator op) :
    ∃ c, c.Extends (.binary op a b) ∧ Spells op.precedence (tokens ++ token :: more) c := by
  have hle := op.precedence_le
  induction hb using operandInduction generalizing tokens a with
  | operand hb =>
    exact ⟨_, .refl _, .infixed hk ha (hb.lower (by omega))⟩
  | @infixed token' op' left right b b' hk' hl hr ihl _ =>
    obtain hlt | heq := Int.lt_or_eq_of_le hq
    · exact ⟨_, .refl _, .infixed hk ha ((Spells.infixed hk' hl hr).lower (by omega))⟩
    · obtain ⟨c, hc, hspells⟩ := ihl ha hq
      refine ⟨.binary op' c b', (hc.binary op' (.refl b')).trans (.regroup hop heq.symm), ?_⟩
      rw [heq] at hspells ⊢
      have := Spells.infixed hk' hspells hr
      rwa [List.append_assoc] at this
  | lift _ ih => exact ih ha (by omega)

/-- A minus in front of a text without sums that does not begin with a power. -/
theorem minus_regroup (h : Spells p tokens a) (hk : token.kind = .operator .sub)
    (hle : ∀ op ∈ outside tokens, 2 ≤ op.precedence) (hhead : (outside tokens).head? ≠ some .pow) :
    ∃ b, b.Extends (-a) ∧ Spells p (token :: tokens) b := by
  induction h using operandInduction with
  | operand h => exact ⟨_, .refl _, .minus hk h⟩
  | @infixed token' op left right a b hk' hl hr ihl _ =>
    rw [hl.outside_infixed hk'] at hle hhead
    have hlow := hl.le_of_mem_outside
    have hop : op = .mul ∨ op = .div := by
      have htwo := hle op (by simp)
      cases op with
      | mul => exact .inl rfl
      | div => exact .inr rfl
      | add | sub => exact absurd htwo (by decide)
      | pow =>
        -- what stands to the left of a power holds only powers, and so begins with one
        cases hleft : outside left with
        | nil => simp [hleft] at hhead
        | cons o rest =>
          rw [hleft] at hlow hhead
          have ho := hlow o (by simp)
          cases o with
          | pow => simp at hhead
          | add | sub | mul | div => exact absurd ho (by decide)
    have hhead' : (outside left).head? ≠ some .pow := by
      cases hleft : outside left with
      | nil => simp
      | cons o rest => simpa [hleft] using hhead
    obtain ⟨c, hc, hspells⟩ := ihl (fun o ho => hle o (by simp [ho])) hhead'
    exact ⟨.binary op c b, .neg_binary hop hc, .infixed hk' hspells hr⟩
  | lift _ ih =>
    obtain ⟨b, hb, hspells⟩ := ih hle hhead
    exact ⟨b, hb, .lift hspells⟩

end Spells

end Fluxion
