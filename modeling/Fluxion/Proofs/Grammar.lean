import Fluxion.Formula.Reading
import Mathlib.Data.List.Chain

/-!
# The grammar of formulas

Which lists of tokens spell which formula is said here by a grammar of four levels, one above the
other: sums and differences (level 1), products and quotients (level 2), powers (level 3), and
operands with the minus signs and functions in front of them (level 4). All operators associate to
the left, and a bracket leads back to level 1.

The reader of `Fluxion.Formula.Reading` has no levels. It keeps a stack and closes operators by
their precedence. What it finds is what the grammar says (`Spells.ofTokens_eq`): after the tokens of
some level it behaves, on every token that does not bind more tightly than the level, as if it held
the formula as one finished operand (`Spells.run_eq`).
-/

namespace Fluxion

/-- `Spells p tokens a`: the tokens spell the formula `a`, and each operator that stands outside
brackets binds at least as tightly as `p`. -/
inductive Spells : Int → List Token → Formula → Prop where
  /-- A numeral spells its value. -/
  | numeral {token : Token} {value : Binary64} : token.kind = .numeral →
      Binary64.ofText? token.text = some value → Spells 4 [token] (.number value)
  /-- The variable. -/
  | var {token : Token} : token.kind = .var → Spells 4 [token] .var
  /-- A constant. -/
  | constant {token : Token} {c : Constant} : token.kind = .constant c →
      Spells 4 [token] (.constant c)
  /-- Brackets make an operand of any formula, and leave no node. -/
  | brackets {opening closing : Token} {tokens : List Token} {a : Formula} :
      opening.kind = .openBracket → closing.kind = .closeBracket → Spells 1 tokens a →
      Spells 4 (opening :: (tokens ++ [closing])) a
  /-- A minus takes the one operand that follows. -/
  | minus {token : Token} {tokens : List Token} {a : Formula} : token.kind = .operator .sub →
      Spells 4 tokens a → Spells 4 (token :: tokens) (-a)
  /-- A function takes the one operand that follows. -/
  | function {token : Token} {f : NamedFunction} {tokens : List Token} {a : Formula} :
      token.kind = .function f → Spells 4 tokens a → Spells 4 (token :: tokens) (.apply f a)
  /-- The right operand of an operator stands one level higher, so operators associate to the
  left. -/
  | infixed {token : Token} {op : Operator} {left right : List Token} {a b : Formula} :
      token.kind = .operator op → Spells op.precedence left a →
      Spells (op.precedence + 1) right b →
      Spells op.precedence (left ++ token :: right) (.binary op a b)
  /-- Each level holds all that the next one holds. -/
  | lift {p : Int} {tokens : List Token} {a : Formula} : Spells (p + 1) tokens a → Spells p tokens a

theorem Operator.precedence_le (op : Operator) : op.precedence ≤ 3 := by
  cases op <;> decide

namespace Spells

variable {p q : Int} {tokens : List Token} {a : Formula}

/-- What is spelled at some level is spelled at every level below. -/
theorem lower (h : Spells p tokens a) (hq : q ≤ p) : Spells q tokens a := by
  obtain ⟨n, rfl⟩ : ∃ n : Nat, p = q + n := ⟨(p - q).toNat, by omega⟩
  clear hq
  induction n with
  | zero => simpa using h
  | succ n ih =>
    refine ih (.lift ?_)
    rwa [Int.add_assoc]

theorem ne_nil (h : Spells p tokens a) : tokens ≠ [] := by
  induction h with
  | lift _ ih => exact ih
  | infixed _ _ _ _ _ => simp
  | _ => simp

end Spells

/-! ### Reading what is spelled -/

namespace Reading

/-- The frames leave room for tokens of a level: nothing on top of them would take a part of such
tokens away. -/
def Room (p : Int) : List Frame → Prop
  | .unary _ :: _ => 4 ≤ p
  | .infixed _ token :: _ => token.kind.precedence < p
  | _ => True

theorem Room.mono {p q : Int} {frames : List Frame} (h : Room p frames) (hq : p ≤ q) :
    Room q frames := by
  match frames, h with
  | [], _ => trivial
  | .bracket :: _, _ => trivial
  | .unary _ :: _, h => exact Int.le_trans h hq
  | .infixed _ _ :: _, h => exact Int.lt_of_lt_of_le h hq

/-- Two readings go on alike with every token that binds at most as tightly as `p`. -/
def Alike (p : Int) (r r' : Reading) : Prop :=
  ∀ token : Token, token.kind.precedence ≤ p → r.step token = r'.step token

theorem Alike.refl (p : Int) (r : Reading) : Alike p r r := fun _ _ => rfl

theorem Alike.mono {p q : Int} {r r' : Reading} (h : Alike q r r') (hp : p ≤ q) : Alike p r r' :=
  fun token ht => h token (Int.le_trans ht hp)

theorem run_singleton (r : Reading) (token : Token) : r.run [token] = r.step token := by
  rw [run_cons]
  cases r.step token <;> rfl

/-- With room below level 4 there is no minus and no function that takes the operand. -/
theorem hold_eq_holds {p : Int} {frames : List Frame} (h : Room p frames) (hp : p < 4)
    (a : Formula) : hold a frames = .holds frames a := by
  match frames, h with
  | [], _ => rfl
  | .bracket :: _, _ => rfl
  | .unary _ :: _, h => exact absurd h (by simp only [Room]; omega)
  | .infixed _ _ :: _, _ => rfl

/-- With room for a precedence, no operator on top is closed by it. -/
theorem reduce_eq {p : Int} {frames : List Frame} (h : Room p frames) (a : Formula) :
    reduce p frames a = .ok (frames, a) := by
  match frames, h with
  | [], _ => rfl
  | .bracket :: _, _ => rfl
  | .unary _ :: _, _ => rfl
  | .infixed _ token :: _, h =>
    simp only [Room] at h
    rw [reduce, if_neg (by omega)]

/-- What a token does after an operand, once the operators that it closes are closed. -/
theorem step_holds {token : Token} {frames frames' : List Frame} {a a' : Formula}
    (h : reduce token.kind.precedence frames a = .ok (frames', a')) :
    (holds frames a).step token =
      if 0 < token.kind.precedence then .ok (.wants (.infixed a' token :: frames'))
      else close token frames' a' := by
  simp only [step, takeOperator, h]
  rfl

/-- An operator is put on top of the frames that have room for it. -/
theorem step_holds_operator {token : Token} {op : Operator} (ht : token.kind = .operator op)
    {frames : List Frame} (h : Room op.precedence frames) (a : Formula) :
    (holds frames a).step token = .ok (.wants (.infixed a token :: frames)) := by
  have hp : token.kind.precedence = op.precedence := by rw [ht]; rfl
  rw [step_holds (by rw [hp]; exact reduce_eq h a), hp, if_pos op.precedence_pos]

/-- A token that binds no more tightly than an operator on top closes it. -/
theorem step_holds_infixed {left : Token} {op : Operator} (hl : left.kind = .operator op)
    {token : Token} (ht : token.kind.precedence ≤ op.precedence) (frames : List Frame)
    (a b : Formula) :
    (holds (.infixed a left :: frames) b).step token = (holds frames (.binary op a b)).step token := by
  have hp : left.kind.precedence = op.precedence := by rw [hl]; rfl
  simp only [step, takeOperator]
  rw [reduce, if_pos (by omega)]
  simp only [combine, hl]
  rfl

/-- A closing bracket closes the bracket on top. -/
theorem step_holds_bracket {token : Token} (ht : token.kind = .closeBracket) (frames : List Frame)
    (a : Formula) : (holds (.bracket :: frames) a).step token = .ok (hold a frames) := by
  have hreduce : reduce token.kind.precedence (.bracket :: frames) a = .ok (.bracket :: frames, a) :=
    rfl
  rw [step_holds hreduce, ht, if_neg (by decide)]
  simp only [close, ht, if_true]

end Reading

open Reading

/-- **The reader follows the grammar**: after tokens of a level it goes on as if it held their
formula as one operand, as long as nothing binds more tightly than the level. -/
theorem Spells.run_eq {p : Int} {tokens : List Token} {a : Formula} (h : Spells p tokens a)
    {frames : List Frame} (room : Room p frames) :
    ∃ r, run (.wants frames) tokens = .ok r ∧ Alike p r (hold a frames) := by
  induction h generalizing frames with
  | numeral hk hv =>
    refine ⟨_, ?_, .refl _ _⟩
    simp only [run_singleton, step, takeOperand, hk, hv]
  | var hk =>
    refine ⟨_, ?_, .refl _ _⟩
    simp only [run_singleton, step, takeOperand, hk]
  | constant hk =>
    refine ⟨_, ?_, .refl _ _⟩
    simp only [run_singleton, step, takeOperand, hk]
  | @brackets opening closing tokens a ho hc _ ih =>
    obtain ⟨r, hr, alike⟩ := ih (show Room 1 (.bracket :: frames) from trivial)
    refine ⟨_, ?_, .refl _ _⟩
    have hopen : step (.wants frames) opening = .ok (.wants (.bracket :: frames)) := by
      simp only [step, takeOperand, ho]
    have hclose : r.step closing = .ok (hold a frames) := by
      rw [alike closing (by rw [hc]; decide)]
      exact step_holds_bracket hc frames a
    rw [run_cons, hopen, Except.bind, run_append, hr, Except.bind, run_singleton, hclose]
  | @minus token tokens a hk _ ih =>
    obtain ⟨r, hr, alike⟩ := ih (show Room 4 (.unary token :: frames) from Int.le_refl 4)
    refine ⟨r, ?_, ?_⟩
    · have hstep : step (.wants frames) token = .ok (.wants (.unary token :: frames)) := by
        simp only [step, takeOperand, hk]
      rw [run_cons, hstep, Except.bind, hr]
    · simpa only [hold, applyUnary, hk] using alike
  | @function token f tokens a hk _ ih =>
    obtain ⟨r, hr, alike⟩ := ih (show Room 4 (.unary token :: frames) from Int.le_refl 4)
    refine ⟨r, ?_, ?_⟩
    · have hstep : step (.wants frames) token = .ok (.wants (.unary token :: frames)) := by
        simp only [step, takeOperand, hk]
      rw [run_cons, hstep, Except.bind, hr]
    · simpa only [hold, applyUnary, hk] using alike
  | @infixed token op left right a b hk _ _ iha ihb =>
    have hlt : op.precedence < 4 := Int.lt_of_le_of_lt op.precedence_le (by decide)
    have hp : token.kind.precedence = op.precedence := by rw [hk]; rfl
    obtain ⟨r, hr, alike⟩ := iha room
    rw [hold_eq_holds room hlt] at alike
    have hstep : r.step token = .ok (.wants (.infixed a token :: frames)) := by
      rw [alike token (Int.le_of_eq hp), step_holds_operator hk room]
    obtain ⟨r', hr', alike'⟩ := ihb
      (show Room (op.precedence + 1) (.infixed a token :: frames) by simp only [Room]; omega)
    refine ⟨r', ?_, ?_⟩
    · rw [run_append, hr, Except.bind, run_cons, hstep, Except.bind, hr']
    · rw [hold_eq_holds room hlt]
      intro t ht
      rw [alike' t (by omega)]
      exact step_holds_infixed hk ht frames a b
  | lift _ ih =>
    obtain ⟨r, hr, alike⟩ := ih (room.mono (by omega))
    exact ⟨r, hr, alike.mono (by omega)⟩

/-- A list of tokens that the grammar derives is read, as the formula of the derivation. -/
theorem Spells.ofTokens_eq {tokens : List Token} {a : Formula} (h : Spells 1 tokens a) :
    Formula.ofTokens tokens = .ok a := by
  obtain ⟨r, hr, alike⟩ := h.run_eq (show Room 1 [] from trivial)
  have hfinish (offset : Nat) : r.finish offset = .ok a := by
    unfold finish
    rw [alike (.endAt offset) (show (-1 : Int) ≤ 1 by decide)]
    rfl
  obtain ⟨last, hlast⟩ := Option.ne_none_iff_exists'.mp
    (fun hn => h.ne_nil (List.getLast?_eq_none_iff.mp hn))
  simp only [Formula.ofTokens, hlast, hr]
  exact hfinish last.span.stop

/-! ### What the grammar looks at -/

/-- What the grammar sees of a token: its kind, and the text if it is a numeral. -/
def Token.terminal (token : Token) : Token.Kind × Option String :=
  (token.kind, if token.kind = .numeral then some token.text else none)

theorem Token.kind_eq_of_terminal {t t' : Token} (h : t'.terminal = t.terminal) :
    t'.kind = t.kind := congrArg Prod.fst h

theorem Token.text_eq_of_terminal {t t' : Token} (h : t'.terminal = t.terminal)
    (ht : t.kind = .numeral) : t'.text = t.text := by
  have hk := kind_eq_of_terminal h
  simpa [terminal, ht, hk] using h

/-- The grammar sees the terminals, and nothing else. -/
theorem Spells.of_terminals {p : Int} {tokens tokens' : List Token} {a : Formula}
    (h : Spells p tokens a) (heq : tokens'.map Token.terminal = tokens.map Token.terminal) :
    Spells p tokens' a := by
  induction h generalizing tokens' with
  | @numeral token value hk hv =>
    obtain ⟨t, rfl, ht⟩ := List.map_eq_singleton_iff.mp heq
    exact .numeral ((Token.kind_eq_of_terminal ht).trans hk)
      (by rw [Token.text_eq_of_terminal ht hk, hv])
  | var hk =>
    obtain ⟨t, rfl, ht⟩ := List.map_eq_singleton_iff.mp heq
    exact .var ((Token.kind_eq_of_terminal ht).trans hk)
  | constant hk =>
    obtain ⟨t, rfl, ht⟩ := List.map_eq_singleton_iff.mp heq
    exact .constant ((Token.kind_eq_of_terminal ht).trans hk)
  | brackets ho hc _ ih =>
    obtain ⟨t, ts, rfl, ht, hts⟩ := List.map_eq_cons_iff.mp heq
    rw [List.map_append] at hts
    obtain ⟨inner, last, rfl, hinner, hlast⟩ := List.map_eq_append_iff.mp hts
    obtain ⟨t', rfl, ht'⟩ := List.map_eq_singleton_iff.mp hlast
    exact .brackets ((Token.kind_eq_of_terminal ht).trans ho)
      ((Token.kind_eq_of_terminal ht').trans hc) (ih hinner)
  | minus hk _ ih =>
    obtain ⟨t, ts, rfl, ht, hts⟩ := List.map_eq_cons_iff.mp heq
    exact .minus ((Token.kind_eq_of_terminal ht).trans hk) (ih hts)
  | function hk _ ih =>
    obtain ⟨t, ts, rfl, ht, hts⟩ := List.map_eq_cons_iff.mp heq
    exact .function ((Token.kind_eq_of_terminal ht).trans hk) (ih hts)
  | infixed hk _ _ iha ihb =>
    rw [List.map_append] at heq
    obtain ⟨left, rest, rfl, hleft, hrest⟩ := List.map_eq_append_iff.mp heq
    obtain ⟨t, right, rfl, ht, hright⟩ := List.map_eq_cons_iff.mp hrest
    exact .infixed ((Token.kind_eq_of_terminal ht).trans hk) (iha hleft) (ihb hright)
  | lift _ ih => exact .lift (ih heq)

/-! ### The operands of what is spelled -/

/-- The first token opens a bracket, or an operand must follow it; or the second closes a bracket, or
stands behind an operand as an operator. -/
def Token.Adjacent (t t' : Token) : Prop :=
  (t.kind = .openBracket ∨ (∃ f, t.kind = .function f) ∨ ∃ op, t.kind = .operator op) ∨
    t'.kind = .closeBracket ∨ ∃ op, t'.kind = .operator op

namespace Spells

variable {p : Int} {tokens : List Token} {a : Formula}

/-- Induction along the operators outside brackets, with the operands between them taken whole. -/
@[elab_as_elim]
theorem operandInduction
    {motive : (p : Int) → (tokens : List Token) → (a : Formula) → Spells p tokens a → Prop}
    (operand : ∀ {tokens : List Token} {a : Formula} (h : Spells 4 tokens a), motive 4 tokens a h)
    (infixed : ∀ {token : Token} {op : Operator} {left right : List Token} {a b : Formula}
      (hk : token.kind = .operator op)
      (hl : Spells op.precedence left a) (hr : Spells (op.precedence + 1) right b),
      motive _ left a hl → motive _ right b hr → motive _ _ _ (.infixed hk hl hr))
    (lift : ∀ {p : Int} {tokens : List Token} {a : Formula} (h : Spells (p + 1) tokens a),
      motive (p + 1) tokens a h → motive p tokens a (.lift h))
    {p : Int} {tokens : List Token} {a : Formula} (h : Spells p tokens a) : motive p tokens a h := by
  induction h with
  | numeral hk hv => exact operand (.numeral hk hv)
  | var hk => exact operand (.var hk)
  | constant hk => exact operand (.constant hk)
  | brackets ho hc h => exact operand (.brackets ho hc h)
  | minus hk h => exact operand (.minus hk h)
  | function hk h => exact operand (.function hk h)
  | infixed hk hl hr ihl ihr => exact infixed hk hl hr ihl ihr
  | lift h ih => exact lift h ih

/-- Of two tokens side by side, the first opens something, or the second closes or joins operands. -/
theorem isChain (h : Spells p tokens a) : tokens.IsChain Token.Adjacent := by
  induction h with
  | numeral | var | constant => exact .singleton _
  | lift _ ih => exact ih
  | brackets ho hc _ ih =>
    refine List.isChain_cons.mpr ⟨fun t _ => .inl (.inl ho), List.isChain_append.mpr
      ⟨ih, .singleton _, fun t _ t' ht' => ?_⟩⟩
    obtain rfl := Option.mem_some_iff.mp ht'
    exact .inr (.inl hc)
  | minus hk _ ih => exact List.isChain_cons.mpr ⟨fun t _ => .inl (.inr (.inr ⟨_, hk⟩)), ih⟩
  | function hk _ ih => exact List.isChain_cons.mpr ⟨fun t _ => .inl (.inr (.inl ⟨_, hk⟩)), ih⟩
  | infixed hk _ _ iha ihb =>
    refine List.isChain_append.mpr ⟨iha, List.isChain_cons.mpr
      ⟨fun t _ => .inl (.inr (.inr ⟨_, hk⟩)), ihb⟩, fun t _ t' ht' => ?_⟩
    obtain rfl := Option.mem_some_iff.mp ht'
    exact .inr (.inr ⟨_, hk⟩)

end Spells

end Fluxion
