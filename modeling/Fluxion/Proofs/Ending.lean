import Fluxion.Proofs.Grammar

/-!
# The end of the input

A list of tokens may hold a token that ends the input. What follows it is not read
(`Formula.ofTokens_append_end`), since with such a token the reader is done or fails: it closes all
operators and finds either nothing left open, or a bracket that it does not close. And it ends the input
as the end of the list does, but for the place where a bracket would have to be closed, and but for a
list in which nothing stands in front of it: then there are tokens, but no operand.
-/

namespace Fluxion

/-- The error with the place where a bracket would have to be closed moved to an offset. -/
def ReadError.closedAt (offset : Nat) : ReadError → ReadError
  | .unclosedBracket _ => .unclosedBracket offset
  | cause => cause

namespace Reading

variable {frames : List Frame} {tokens : List Token} {last : Token} {a : Formula} {p : Int}
  {cause : ReadError}

theorem closedAt_missing (offset : Nat) (frames : List Frame) :
    (missing frames).closedAt offset = missing frames := by
  rw [missing]
  split <;> rfl

/-- Where operators are closed, only a token that joins no operands is refused. -/
theorem exists_unexpected_of_reduce (h : reduce p frames a = .error cause) :
    ∃ token, cause = .unexpected token := by
  fun_induction reduce p frames a with
  | case1 left token frames right hle ih =>
    obtain hcombine | ⟨b, -, hreduce⟩ := error_of_bind h
    · unfold combine at hcombine
      split at hcombine
      · cases hcombine
      · cases hcombine
        exact ⟨token, rfl⟩
    · exact ih b hreduce
  | case2 | case3 => cases h

/-- A token that ends the input closes no bracket, and leaves the formula if none is open. -/
theorem close_end (hend : last.kind = .endOfInput) (frames : List Frame) (a : Formula) :
    close last frames a = match frames with
      | .bracket :: _ => .error (.unclosedBracket last.span.start)
      | _ => .ok (.done a) := by
  have hisEnd : last.isEnd = true := decide_eq_true hend
  match frames with
  | .bracket :: _ => rw [close, if_neg (by simp [hend])]
  | [] | .unary _ :: _ | .infixed _ _ :: _ => simp only [close, hisEnd, if_true]

/-- A token that ends the input ends it as an offset does, at its own place. -/
theorem step_end (hend : last.kind = .endOfInput) (r : Reading) (offset : Nat) :
    r.step last = ((r.finish offset).map done).mapError (ReadError.closedAt last.span.start) := by
  cases r with
  | done a => rfl
  | wants frames =>
    have hlast : (wants frames).step last = .error (missing frames) := by
      simp only [step, takeOperand, hend]
    have hfinish : (wants frames).finish offset = .error (missing frames) := rfl
    rw [hlast, hfinish, Except.map, Except.mapError, closedAt_missing]
  | holds frames a =>
    have hprecedence : last.kind.precedence = (Token.endAt offset).kind.precedence := by
      rw [hend]
      rfl
    rw [finish]
    cases hreduce : reduce (Token.endAt offset).kind.precedence frames a with
    | error cause =>
      obtain ⟨token, rfl⟩ := exists_unexpected_of_reduce hreduce
      simp only [step, takeOperator, hprecedence, hreduce]
      rfl
    | ok reduced =>
      have hneg : ¬ 0 < (Token.endAt offset).kind.precedence := show ¬ (0 : Int) < -1 by decide
      rw [step_holds hreduce, step_holds (hprecedence ▸ hreduce), hprecedence, if_neg hneg,
        if_neg hneg, close_end hend, close_end rfl]
      split <;> rfl

/-- What follows the end of the input is not read. -/
theorem run_append_end (hend : last.kind = .endOfInput) (r : Reading) (tokens more : List Token) :
    r.run (tokens ++ last :: more) = (r.run tokens).bind (·.step last) := by
  rw [run_append]
  cases r.run tokens with
  | error cause => rfl
  | ok r' =>
    rw [Except.bind, Except.bind, run_cons, step_end hend r' 0]
    cases r'.finish 0 with
    | error cause => rfl
    | ok a => exact run_done a more

end Reading

/-! ### Lists that hold their end -/

namespace Formula

variable {tokens : List Token} {last : Token}

/-- No token is refused, so that an error is one of the end. -/
def ReachesEnd (tokens : List Token) : Prop := ((Reading.wants []).run tokens).isOk = true

instance (tokens : List Token) : Decidable (ReachesEnd tokens) :=
  inferInstanceAs (Decidable (((Reading.wants []).run tokens).isOk = true))

/-- The formula in front of a token that ends the input. -/
theorem ofTokens_append_end_eq_bind (hend : last.kind = .endOfInput) (more : List Token)
    (offset : Nat) : ofTokens (tokens ++ last :: more) =
      ((Reading.wants []).run tokens).bind fun r =>
        (r.finish offset).mapError (ReadError.closedAt last.span.start) := by
  obtain ⟨final, hfinal⟩ : ∃ final, (tokens ++ last :: more).getLast? = some final :=
    Option.ne_none_iff_exists'.mp (by simp)
  rw [ofTokens, hfinal]
  simp only [Reading.run_append_end hend]
  cases (Reading.wants []).run tokens with
  | error cause => rfl
  | ok r =>
    simp only [Except.bind, Reading.step_end hend r offset]
    cases r.finish offset <;> rfl

/-- **A token that ends the input ends the reading.** What follows it makes no difference. The result is
that of the tokens in front of it, but if there are none, an operand is missing; and a bracket that is
still open behind the last of them would have to be closed where the input ends. -/
theorem ofTokens_append_end (hend : last.kind = .endOfInput) (more : List Token) :
    ofTokens (tokens ++ last :: more) =
      if tokens = [] then .error .missingOperand
      else if ReachesEnd tokens then
        (ofTokens tokens).mapError (ReadError.closedAt last.span.start)
      else ofTokens tokens := by
  split
  · next hnil =>
    rw [hnil, ofTokens_append_end_eq_bind hend more 0]
    rfl
  · next hne =>
    obtain ⟨final, hfinal⟩ : ∃ final, tokens.getLast? = some final :=
      Option.ne_none_iff_exists'.mp (by simpa using hne)
    rw [ofTokens_append_end_eq_bind hend more final.span.stop, ofTokens, hfinal]
    cases hrun : (Reading.wants []).run tokens with
    | error cause =>
      have hends : ¬ ReachesEnd tokens := by
        rw [ReachesEnd, hrun]
        exact Bool.false_ne_true
      rw [if_neg hends]
      rfl
    | ok r =>
      have hends : ReachesEnd tokens := by
        rw [ReachesEnd, hrun]
        rfl
      rw [if_pos hends]
      rfl

/-- The bracket would have to be closed where the input ends, and the bracket behind does not close it. -/
theorem ofTokens_append_end_bracket :
    let tokens : List Token := [⟨.openBracket, "(", ⟨0, 1⟩⟩, ⟨.var, "x", ⟨1, 2⟩⟩]
    let last : Token := ⟨.endOfInput, "", ⟨7, 9⟩⟩
    let closing : Token := ⟨.closeBracket, ")", ⟨9, 10⟩⟩
    last.kind = .endOfInput ∧ ofTokens tokens = .error (.unclosedBracket 2) ∧
      ofTokens (tokens ++ [last, closing, last]) = .error (.unclosedBracket 7) := by
  intro tokens last closing
  refine ⟨rfl, rfl, ?_⟩
  rw [ofTokens_append_end rfl, if_neg (by decide), if_pos (by decide)]
  rfl

end Formula

end Fluxion
