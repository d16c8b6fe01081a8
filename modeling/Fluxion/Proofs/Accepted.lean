import Fluxion.Proofs.Grammar

/-!
# What the reader accepts

The other half of `Fluxion.Proofs.Grammar`: the reader accepts nothing that the grammar does not
derive (`Spells.of_ofTokens`), so it accepts exactly what the grammar derives, as the formula of the
derivation (`Formula.ofTokens_eq_ok_iff`).

What is kept from token to token is that the open frames account for the tokens read so far
(`Reading.Reached`): each operator on the stack has its left operand in front of it, spelled at the
operator's own level, and the frame under an operator binds more loosely than the operator does.
-/

namespace Fluxion

theorem Token.Kind.neg_one_le_precedence (kind : Token.Kind) : -1 ≤ kind.precedence := by
  cases kind with
  | operator op => exact Int.le_trans (by decide) op.precedence_pos
  | endOfInput | numeral | var | constant | openBracket | closeBracket | function =>
    simp only [precedence]
    decide

theorem Token.Kind.precedence_le (kind : Token.Kind) : kind.precedence ≤ 4 := by
  cases kind with
  | operator op => exact Int.le_trans op.precedence_le (by decide)
  | endOfInput | numeral | var | constant | openBracket | closeBracket | function =>
    simp only [precedence]
    decide

namespace Reading

/-! ### Frames and tokens -/

/-- The tokens that have led to the open frames. A function that stands as an operator has no
precondition, since it will be refused. -/
inductive Opened : List Frame → List Token → Prop where
  /-- Nothing has been read. -/
  | nil : Opened [] []
  /-- An opening bracket. -/
  | bracket {frames : List Frame} {tokens : List Token} {token : Token} :
      token.kind = .openBracket → Opened frames tokens →
      Opened (.bracket :: frames) (tokens ++ [token])
  /-- A minus in front of an operand. -/
  | minus {frames : List Frame} {tokens : List Token} {token : Token} :
      token.kind = .operator .sub → Opened frames tokens →
      Opened (.unary token :: frames) (tokens ++ [token])
  /-- A function in front of its argument. -/
  | function {frames : List Frame} {tokens : List Token} {token : Token} {f : NamedFunction} :
      token.kind = .function f → Opened frames tokens →
      Opened (.unary token :: frames) (tokens ++ [token])
  /-- An operator behind its left operand. -/
  | infixed {frames : List Frame} {tokens left : List Token} {token : Token} {a : Formula} :
      (∀ op, token.kind = .operator op → Room op.precedence frames ∧ Spells op.precedence left a) →
      Opened frames tokens → Opened (.infixed a token :: frames) (tokens ++ (left ++ [token]))

/-- No minus and no function is on top. -/
def Settled : List Frame → Prop
  | .unary _ :: _ => False
  | _ => True

/-- The operator on top, if there is one, binds less tightly than `p`. -/
def Looser (p : Int) : List Frame → Prop
  | .infixed _ token :: _ => ∀ op, token.kind = .operator op → op.precedence < p
  | _ => True

theorem Looser.four (frames : List Frame) : Looser 4 frames := by
  match frames with
  | .infixed _ _ :: _ => exact fun op _ => Int.lt_of_le_of_lt op.precedence_le (by decide)
  | [] | .bracket :: _ | .unary _ :: _ => trivial

theorem Room.settled {op : Operator} {frames : List Frame} (h : Room op.precedence frames) :
    Settled frames := by
  match frames, h with
  | .unary _ :: _, h =>
    have := op.precedence_le
    simp only [Room] at h
    omega
  | [], _ | .bracket :: _, _ | .infixed _ _ :: _, _ => trivial

theorem Room.looser {p : Int} {frames : List Frame} (h : Room p frames) : Looser p frames := by
  match frames, h with
  | .infixed _ token :: _, h =>
    intro op hk
    simp only [Room, hk] at h
    exact h
  | [], _ | .bracket :: _, _ | .unary _ :: _, _ => trivial

/-! ### Steps -/

variable {frames frames' : List Frame} {before inner tokens : List Token} {a a' : Formula}

/-- A finished operand is taken by the minus signs and functions in front of it. -/
theorem hold_opened (h : Opened frames before) (ha : Spells 4 inner a) :
    ∃ frames' before' inner' a', hold a frames = .holds frames' a' ∧
      before ++ inner = before' ++ inner' ∧ Opened frames' before' ∧ Settled frames' ∧
      Spells 4 inner' a' := by
  induction h generalizing inner a with
  | nil => exact ⟨_, _, _, _, rfl, rfl, .nil, trivial, ha⟩
  | bracket hk h => exact ⟨_, _, _, _, rfl, rfl, .bracket hk h, trivial, ha⟩
  | infixed hop h => exact ⟨_, _, _, _, rfl, rfl, .infixed hop h, trivial, ha⟩
  | minus hk _ ih =>
    obtain ⟨frames', before', inner', a', hhold, heq, hrest⟩ := ih (.minus hk ha)
    refine ⟨frames', before', inner', a', ?_, ?_, hrest⟩
    · simpa only [hold, applyUnary, hk] using hhold
    · rw [List.append_assoc]
      exact heq
  | function hk _ ih =>
    obtain ⟨frames', before', inner', a', hhold, heq, hrest⟩ := ih (.function hk ha)
    refine ⟨frames', before', inner', a', ?_, ?_, hrest⟩
    · simpa only [hold, applyUnary, hk] using hhold
    · rw [List.append_assoc]
      exact heq

/-- Closing operators joins their operands to what the grammar derives, at a level that is at least
the precedence they were closed for. -/
theorem reduce_opened {p q : Int} (h : Opened frames before) (hs : Settled frames)
    (hq : Looser q frames) (hp : p ≤ q) (hpos : 1 ≤ q) (ha : Spells q inner a)
    (hreduce : reduce p frames a = .ok (frames', a')) :
    ∃ before' inner' q', before ++ inner = before' ++ inner' ∧ Opened frames' before' ∧
      Settled frames' ∧ Room p frames' ∧ p ≤ q' ∧ 1 ≤ q' ∧ Spells q' inner' a' := by
  induction h generalizing inner a q with
  | nil =>
    cases hreduce
    exact ⟨_, _, q, rfl, .nil, trivial, trivial, hp, hpos, ha⟩
  | bracket hk h =>
    cases hreduce
    exact ⟨_, _, q, rfl, .bracket hk h, trivial, trivial, hp, hpos, ha⟩
  | minus | function => exact absurd hs id
  | @infixed frames tokens left token b hop h ih =>
    rw [reduce] at hreduce
    split at hreduce
    · next hle =>
      cases hk : token.kind with
      | operator op =>
        obtain ⟨hroom, hleft⟩ := hop op hk
        have hprec : token.kind.precedence = op.precedence := by rw [hk]; rfl
        have hright : Spells (op.precedence + 1) inner a := ha.lower (hq op hk)
        simp only [combine, hk] at hreduce
        obtain ⟨before', inner', q', heq, hrest⟩ := ih hroom.settled hroom.looser
          (by omega) op.precedence_pos (.infixed hk hleft hright) hreduce
        refine ⟨before', inner', q', ?_, hrest⟩
        rw [← heq]
        simp
      | numeral | var | constant | openBracket | closeBracket | function | endOfInput =>
        simp only [combine, hk] at hreduce
        cases hreduce
    · next hlt =>
      cases hreduce
      exact ⟨_, _, q, rfl, .infixed hop h, trivial, Int.not_le.mp hlt, hp, hpos, ha⟩

/-- The reading accounts for the tokens read so far. -/
def Reached : Reading → List Token → Prop
  | .wants frames, tokens => Opened frames tokens
  | .holds frames a, tokens => ∃ before inner, tokens = before ++ inner ∧ Opened frames before ∧
      Settled frames ∧ Spells 4 inner a
  | .done _, _ => False

theorem Reached.of_hold (h : Opened frames before) (ha : Spells 4 inner a)
    (heq : tokens = before ++ inner) : Reached (hold a frames) tokens := by
  obtain ⟨frames', before', inner', a', hhold, happend, hrest⟩ := hold_opened h ha
  rw [hhold]
  exact ⟨before', inner', heq.trans happend, hrest⟩

theorem Reached.takeOperand {token : Token} {r : Reading} (h : Opened frames tokens)
    (hstep : Reading.takeOperand frames token = .ok r) : Reached r (tokens ++ [token]) := by
  unfold Reading.takeOperand at hstep
  split at hstep
  · next hk =>
    split at hstep
    · next hv =>
      cases hstep
      exact .of_hold h (.numeral hk hv) rfl
    · cases hstep
  · next hk =>
    cases hstep
    exact .of_hold h (.var hk) rfl
  · next hk =>
    cases hstep
    exact .of_hold h (.constant hk) rfl
  · next hk =>
    cases hstep
    exact .bracket hk h
  · next hk =>
    cases hstep
    exact .minus hk h
  · next hk =>
    cases hstep
    exact .function hk h
  all_goals cases hstep

theorem Reached.takeOperator {token : Token} (ht : token.kind ≠ .endOfInput) {r : Reading}
    (h : Reached (.holds frames a) tokens)
    (hstep : Reading.takeOperator frames a token = .ok r) : Reached r (tokens ++ [token]) := by
  obtain ⟨before, inner, rfl, hopen, hsettled, ha⟩ := h
  unfold Reading.takeOperator at hstep
  obtain ⟨⟨frames', a'⟩, hreduce, hstep⟩ := exists_ok_of_bind hstep
  obtain ⟨before', inner', q', heq, hopen', hsettled', hroom, hpq, hpos, ha'⟩ :=
    reduce_opened hopen hsettled (.four frames) token.kind.precedence_le (by decide) ha hreduce
  rw [heq]
  simp only at hstep
  split at hstep
  · cases hstep
    rw [Reached, List.append_assoc]
    refine .infixed (fun op hk => ?_) hopen'
    have hprec : token.kind.precedence = op.precedence := by rw [hk]; rfl
    exact ⟨hprec ▸ hroom, ha'.lower (hprec ▸ hpq)⟩
  · unfold close at hstep
    split at hstep
    · split at hstep
      · next hclose =>
        cases hstep
        cases hopen' with
        | bracket hk hopen' =>
          refine .of_hold hopen' (.brackets hk hclose (ha'.lower hpos)) ?_
          simp
      · cases hstep
    · have hend : token.isEnd = false := decide_eq_false ht
      rw [hend] at hstep
      cases hstep

/-- One more token is accounted for. -/
theorem Reached.step {token : Token} (ht : token.kind ≠ .endOfInput) {r r' : Reading}
    (h : Reached r tokens) (hstep : r.step token = .ok r') : Reached r' (tokens ++ [token]) := by
  cases r with
  | wants frames => exact .takeOperand h hstep
  | holds frames a => exact .takeOperator ht h hstep
  | done a => exact absurd h id

/-- All tokens are accounted for. -/
theorem Reached.run {r r' : Reading} {more : List Token} (ht : ∀ t ∈ more, t.kind ≠ .endOfInput)
    (h : Reached r tokens) (hrun : r.run more = .ok r') : Reached r' (tokens ++ more) := by
  induction more generalizing r tokens with
  | nil =>
    cases hrun
    rwa [List.append_nil]
  | cons token more ih =>
    rw [run_cons] at hrun
    obtain ⟨next, hstep, hrun⟩ := exists_ok_of_bind hrun
    have := ih (fun t h => ht t (by simp [h])) (h.step (ht token (by simp)) hstep) hrun
    simpa using this

/-- Where the input may end, all tokens spell the formula. -/
theorem Reached.finish {r : Reading} {offset : Nat} (h : Reached r tokens)
    (hfinish : r.finish offset = .ok a) : Spells 1 tokens a := by
  obtain ⟨last, hstep, hfinish⟩ := exists_ok_of_bind hfinish
  cases r with
  | wants frames => cases hstep
  | done b => exact absurd h id
  | holds frames b =>
    obtain ⟨before, inner, rfl, hopen, hsettled, hb⟩ := h
    obtain ⟨⟨frames', b'⟩, hreduce, hclose⟩ := exists_ok_of_bind hstep
    obtain ⟨before', inner', q', heq, hopen', hsettled', hroom, hpq, hpos, hb'⟩ :=
      reduce_opened hopen hsettled (.four frames) (Token.Kind.precedence_le _) (by decide) hb
        hreduce
    rw [heq]
    cases hopen' with
    | nil =>
      cases hclose
      cases hfinish
      exact hb'.lower hpos
    | bracket => cases hclose
    | minus | function => exact absurd hsettled' id
    | @infixed _ _ _ token =>
      have hle := token.kind.neg_one_le_precedence
      have hlt : token.kind.precedence < -1 := hroom
      omega

end Reading

/-- **The reader accepts nothing else**: tokens that are read as a formula are derived by the
grammar as that formula. -/
theorem Spells.of_ofTokens {tokens : List Token} (ht : ∀ t ∈ tokens, t.kind ≠ .endOfInput)
    {a : Formula} (h : Formula.ofTokens tokens = .ok a) : Spells 1 tokens a := by
  unfold Formula.ofTokens at h
  split at h
  · cases h
  · obtain ⟨r, hrun, hfinish⟩ := exists_ok_of_bind h
    have hstart : Reading.Reached (.wants []) [] := Reading.Opened.nil
    exact (hstart.run ht hrun).finish hfinish

/-- **What is read is what the grammar derives**: tokens without an end of input are read as a
formula exactly if they spell it. -/
theorem Formula.ofTokens_eq_ok_iff {tokens : List Token} (ht : ∀ t ∈ tokens, t.kind ≠ .endOfInput)
    {a : Formula} : ofTokens tokens = .ok a ↔ Spells 1 tokens a :=
  ⟨.of_ofTokens ht, Spells.ofTokens_eq⟩

/-- A minus binds more tightly than a power. -/
theorem Formula.ofTokens_eq_ok_iff_neg_power :
    let tokens : List Token := [⟨.operator .sub, "-", ⟨0, 1⟩⟩, ⟨.var, "x", ⟨1, 2⟩⟩,
      ⟨.operator .pow, "^", ⟨2, 3⟩⟩, ⟨.constant .e, "e", ⟨3, 4⟩⟩]
    (∀ t ∈ tokens, t.kind ≠ .endOfInput) ∧
    ofTokens tokens = .ok (.binary .pow (-.var) (.constant .e)) ∧
    Spells 1 tokens (.binary .pow (-.var) (.constant .e)) :=
  ⟨by decide, by rfl, (ofTokens_eq_ok_iff (by decide)).mp (by rfl)⟩

end Fluxion
