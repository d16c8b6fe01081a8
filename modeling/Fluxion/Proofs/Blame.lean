import Fluxion.Proofs.Viable

/-!
# Which error is reported

Tokens that are refused are refused at the first token that makes them unfit, or else at their end
(`Formula.ofTokens_eq_error`). At the end, what is said depends on what is missing: a closing bracket,
an operand, or the argument of a minus or function. A minus or a function awaits its argument as long
as nothing that follows it is a complete operand (`Awaits`), so also where a bracket that it takes is
still open; of several that wait, the innermost is named. The reader finds its name on the stack
(`Reading.Opened.awaited`), since all others in front have their arguments, and a bracket on the stack
keeps a minus or function below from having it.
-/

namespace Fluxion

/-! ### Minus signs and functions -/

/-- A function, or a minus that does not follow an operand. -/
def TakesArgument (before : List Token) (token : Token) : Prop :=
  (∃ f, token.kind = .function f) ∨ token.kind = .operator .sub ∧ ¬ EndsOperand before

theorem TakesArgument.of_append (tokens : List Token) {before : List Token} {token : Token}
    (h : TakesArgument (tokens ++ before) token) : TakesArgument before token :=
  h.imp_right fun ⟨hk, hends⟩ => ⟨hk, fun hbefore => hends (hbefore.append tokens)⟩

/-- A token in a list is the first one, or stands behind it. -/
theorem cons_eq_append_cons {first token : Token} {rest before after : List Token}
    (h : first :: rest = before ++ token :: after) :
    (before = [] ∧ token = first ∧ after = rest) ∨
      ∃ before', before = first :: before' ∧ rest = before' ++ token :: after := by
  rcases List.cons_eq_append_iff.mp h with ⟨rfl, hfirst⟩ | hrest
  · obtain ⟨rfl, rfl⟩ := List.cons.inj hfirst
    exact .inl ⟨rfl, rfl, rfl⟩
  · exact .inr hrest

/-- A token in a joined list stands in the left part or in the right part. -/
theorem append_eq_append_cons {left right before after : List Token} {token : Token}
    (h : left ++ right = before ++ token :: after) :
    (∃ after', left = before ++ token :: after' ∧ after = after' ++ right) ∨
      ∃ before', before = left ++ before' ∧ right = before' ++ token :: after := by
  rcases List.append_eq_append_iff.mp h with hright | ⟨middle, rfl, hmiddle⟩
  · exact .inr hright
  · rcases List.cons_eq_append_iff.mp hmiddle with ⟨rfl, rfl⟩ | ⟨after', rfl, hafter⟩
    · exact .inr ⟨[], by simp, rfl⟩
    · exact .inl ⟨after', rfl, hafter⟩

/-- In what is spelled, each minus and each function has its argument. -/
theorem Spells.exists_argument {p : Int} {tokens before after : List Token} {token : Token}
    {a : Formula} (h : Spells p tokens a) (heq : tokens = before ++ token :: after)
    (ht : TakesArgument before token) :
    ∃ inner rest b, after = inner ++ rest ∧ Spells 4 inner b := by
  induction h generalizing before after with
  | numeral hk | var hk | constant hk =>
    rcases cons_eq_append_cons heq with ⟨-, rfl, -⟩ | ⟨_, -, hnil⟩
    · simp [TakesArgument, hk] at ht
    · simp at hnil
  | @brackets opening closing tokens a ho hc _ ih =>
    rcases cons_eq_append_cons heq with ⟨-, rfl, -⟩ | ⟨before, rfl, hrest⟩
    · simp [TakesArgument, ho] at ht
    · have ht : TakesArgument before token := ht.of_append [opening]
      rcases append_eq_append_cons hrest with ⟨after', rfl, rfl⟩ | ⟨before', rfl, hlast⟩
      · obtain ⟨inner, rest, b, rfl, hb⟩ := ih rfl ht
        exact ⟨inner, rest ++ [closing], b, List.append_assoc .., hb⟩
      · rcases cons_eq_append_cons hlast with ⟨-, rfl, -⟩ | ⟨_, -, hnil⟩
        · simp [TakesArgument, hc] at ht
        · simp at hnil
  | @minus first tokens a hk htokens ih | @function first f tokens a hk htokens ih =>
    rcases cons_eq_append_cons heq with ⟨-, rfl, rfl⟩ | ⟨before, rfl, hrest⟩
    · exact ⟨after, [], a, (List.append_nil after).symm, htokens⟩
    · exact ih hrest (ht.of_append [first])
  | @infixed middle op left right a b hk hl hr ihl ihr =>
    rcases append_eq_append_cons heq with ⟨after', rfl, rfl⟩ | ⟨before', rfl, hrest⟩
    · obtain ⟨inner, rest, c, rfl, hc⟩ := ihl rfl ht
      exact ⟨inner, rest ++ middle :: right, c, List.append_assoc .., hc⟩
    · rcases cons_eq_append_cons hrest with ⟨rfl, rfl, -⟩ | ⟨before, rfl, hright⟩
      · -- an operator follows an operand
        rcases ht with ⟨f, hf⟩ | ⟨-, hends⟩
        · simp [hk] at hf
        · exact absurd hl.endsOperand (by simpa using hends)
      · have ht : TakesArgument (left ++ [middle] ++ before) token := by simpa using ht
        exact ihr hright (ht.of_append _)
  | lift _ ih => exact ih heq ht

/-- No beginning of what is spelled closes more brackets than it opens. -/
theorem Spells.surplus_nonneg {p : Int} {tokens left right : List Token} {a : Formula}
    (h : Spells p tokens a) (heq : tokens = left ++ right) : 0 ≤ surplus left := by
  induction h generalizing left right with
  | numeral hk | var hk | constant hk =>
    rcases List.singleton_eq_append_iff.mp heq with ⟨rfl, -⟩ | ⟨rfl, -⟩
    · exact Int.le_refl 0
    · exact Int.le_of_eq (surplus_other (by simp [hk]) (by simp [hk])).symm
  | brackets ho hc htokens ih =>
    rcases List.cons_eq_append_iff.mp heq with ⟨rfl, -⟩ | ⟨rest, rfl, hrest⟩
    · exact Int.le_refl 0
    · rw [surplus_cons, surplus_openBracket ho]
      rcases List.append_eq_append_iff.mp hrest with ⟨last, rfl, hlast⟩ | ⟨_, hleft, -⟩
      · rw [surplus_append, htokens.surplus_eq]
        rcases List.singleton_eq_append_iff.mp hlast with ⟨rfl, -⟩ | ⟨rfl, -⟩
        · decide
        · rw [surplus_closeBracket hc]
          decide
      · have := ih hleft
        omega
  | minus hk _ ih | function hk _ ih =>
    rcases List.cons_eq_append_iff.mp heq with ⟨rfl, -⟩ | ⟨rest, rfl, hrest⟩
    · exact Int.le_refl 0
    · rw [surplus_cons, surplus_other (by simp [hk]) (by simp [hk]), Int.zero_add]
      exact ih hrest
  | infixed hk hl _ ihl ihr =>
    rcases List.append_eq_append_iff.mp heq with ⟨more, rfl, hmore⟩ | ⟨_, hleft, -⟩
    · rw [surplus_append, hl.surplus_eq, Int.zero_add]
      rcases List.cons_eq_append_iff.mp hmore with ⟨rfl, -⟩ | ⟨rest, rfl, hrest⟩
      · exact Int.le_refl 0
      · rw [surplus_cons, surplus_other (by simp [hk]) (by simp [hk]), Int.zero_add]
        exact ihr hrest
    · exact ihl hleft
  | lift _ ih => exact ih heq

/-! ### Arguments that are awaited -/

/-- A minus or a function in the tokens, behind which no complete operand follows. -/
structure Awaits (tokens before : List Token) (token : Token) (after : List Token) : Prop where
  split : tokens = before ++ token :: after
  takesArgument : TakesArgument before token
  incomplete : ∀ inner rest b, after = inner ++ rest → ¬ Spells 4 inner b

/-- The last one of these. -/
structure AwaitsInnermost (tokens before : List Token) (token : Token) (after : List Token) : Prop
    extends Awaits tokens before token after where
  length_le : ∀ before' token' after', Awaits tokens before' token' after' →
    before'.length ≤ before.length

/-- There is only one innermost minus or function that awaits its argument. -/
theorem AwaitsInnermost.unique {tokens before before' after after' : List Token} {token token' : Token}
    (h : AwaitsInnermost tokens before token after)
    (h' : AwaitsInnermost tokens before' token' after') : token = token' := by
  have hlength : before.length = before'.length :=
    Nat.le_antisymm (h'.length_le _ _ _ h.toAwaits) (h.length_le _ _ _ h'.toAwaits)
  exact (List.cons.inj (List.append_inj (h.split.symm.trans h'.split) hlength).2).1

/-- What is awaited: the text of the innermost minus or function, if there is one. -/
def Awaited (tokens : List Token) : Option String → Prop
  | some name => ∃ before token after, AwaitsInnermost tokens before token after ∧ token.text = name
  | none => ∀ before token after, ¬ Awaits tokens before token after

namespace Awaits

variable {tokens more before after : List Token} {token last : Token}

theorem ne_nil (h : Awaits tokens before token after) : tokens ≠ [] := by
  rw [h.split]
  exact List.append_ne_nil_of_right_ne_nil _ (List.cons_ne_nil _ _)

/-- What awaits its argument among more tokens awaits it among fewer, if it stands there. -/
theorem of_append (h : Awaits (tokens ++ more) before token after) :
    (∃ after', after = after' ++ more ∧ Awaits tokens before token after') ∨
      ∃ before', before = tokens ++ before' ∧ more = before' ++ token :: after := by
  rcases append_eq_append_cons h.split with ⟨after', htokens, rfl⟩ | hmore
  · refine .inl ⟨after', rfl, htokens, h.takesArgument, fun inner rest b heq => ?_⟩
    exact h.incomplete inner (rest ++ more) b (by rw [heq, List.append_assoc])
  · exact .inr hmore

/-- A bracket awaits no argument. -/
theorem of_openBracket (h : Awaits (tokens ++ [last]) before token after)
    (hk : last.kind = .openBracket) :
    ∃ after', after = after' ++ [last] ∧ Awaits tokens before token after' := by
  refine h.of_append.resolve_right ?_
  rintro ⟨before', -, hlast⟩
  rcases cons_eq_append_cons hlast with ⟨-, rfl, -⟩ | ⟨_, -, hnil⟩
  · have := h.takesArgument
    simp [TakesArgument, hk] at this
  · simp at hnil

/-- More tokens complete no argument, if together with them there is none. -/
theorem append (h : Awaits tokens before token after)
    (hmore : ∀ inner rest b, more = inner ++ rest → ¬ Spells 4 (after ++ inner) b) :
    Awaits (tokens ++ more) before token (after ++ more) := by
  have hsplit : tokens ++ more = before ++ token :: (after ++ more) := by
    rw [h.split, List.append_assoc, List.cons_append]
  refine ⟨hsplit, h.takesArgument, fun inner rest b heq => ?_⟩
  rcases List.append_eq_append_iff.mp heq with ⟨middle, rfl, hmiddle⟩ | ⟨_, hafter, -⟩
  · exact hmore middle rest b hmiddle
  · exact h.incomplete inner _ b hafter

/-- A token that ends no operand completes no argument. -/
theorem concat (h : Awaits tokens before token after) (hlast : last.endsOperand = false) :
    Awaits (tokens ++ [last]) before token (after ++ [last]) := by
  refine h.append fun inner rest b heq hb => ?_
  rcases List.singleton_eq_append_iff.mp heq with ⟨rfl, -⟩ | ⟨rfl, -⟩
  · exact h.incomplete after [] b (List.append_nil _).symm (by rwa [List.append_nil] at hb)
  · exact Bool.false_ne_true (hlast.symm.trans ((endsOperand_concat _).mp hb.endsOperand))

end Awaits

/-- A minus or a function at the end awaits its argument. -/
theorem awaitsInnermost_concat {tokens : List Token} {token : Token}
    (h : TakesArgument tokens token) : AwaitsInnermost (tokens ++ [token]) tokens token [] where
  split := rfl
  takesArgument := h
  incomplete inner rest b heq hb := hb.ne_nil (List.append_eq_nil_iff.mp heq.symm).1
  length_le before' token' after' hawaits := by
    have := congrArg List.length hawaits.split
    simp only [List.length_append, List.length_cons, List.length_nil] at this
    omega

/-- More tokens in which nothing awaits an argument, and that complete none, change nothing. -/
theorem Awaited.append {tokens more : List Token} {name? : Option String} (h : Awaited tokens name?)
    (hnew : ∀ before token after, Awaits (tokens ++ more) before token after →
      ∃ after', Awaits tokens before token after')
    (hkeep : ∀ before token after, Awaits tokens before token after →
      Awaits (tokens ++ more) before token (after ++ more)) :
    Awaited (tokens ++ more) name? := by
  cases name? with
  | none =>
    intro before token after hawaits
    obtain ⟨after', hawaits⟩ := hnew before token after hawaits
    exact h before token after' hawaits
  | some name =>
    obtain ⟨before, token, after, hinnermost, hname⟩ := h
    refine ⟨before, token, after ++ more, ⟨hkeep _ _ _ hinnermost.toAwaits, ?_⟩, hname⟩
    intro before' token' after' hawaits
    obtain ⟨after'', hawaits⟩ := hnew before' token' after' hawaits
    exact hinnermost.length_le _ _ _ hawaits

namespace Reading

variable {frames : List Frame} {tokens before left after : List Token} {token : Token}

/-- An operator behind its left operand awaits no argument, and neither does anything in that
operand. -/
theorem exists_of_awaits_infixed {p : Int} {op : Operator} {a : Formula} {last : Token}
    (hleft : Spells p left a) (hk : last.kind = .operator op)
    (h : Awaits (tokens ++ (left ++ [last])) before token after) :
    ∃ after', after = after' ++ (left ++ [last]) ∧ Awaits tokens before token after' := by
  refine h.of_append.resolve_right ?_
  rintro ⟨before', rfl, hmore⟩
  have ht : TakesArgument before' token := h.takesArgument.of_append _
  rcases append_eq_append_cons hmore with ⟨after', rfl, rfl⟩ | ⟨before'', rfl, hlast⟩
  · obtain ⟨inner, rest, b, rfl, hb⟩ := hleft.exists_argument rfl ht
    exact h.incomplete inner (rest ++ [last]) b (List.append_assoc ..) hb
  · rcases cons_eq_append_cons hlast with ⟨rfl, rfl, -⟩ | ⟨_, -, hnil⟩
    · rcases ht with ⟨f, hf⟩ | ⟨-, hends⟩
      · simp [hk] at hf
      · exact absurd hleft.endsOperand (by simpa using hends)
    · simp at hnil

/-- Behind what awaits its argument, no more brackets are closed than opened; and more are opened, if it
is not on top of the frames. -/
theorem Opened.surplus_of_awaits (h : Opened frames tokens) (hp : Proper frames)
    (hawaits : Awaits tokens before token after) :
    0 ≤ surplus after ∧ (Settled frames → 1 ≤ surplus after) := by
  induction h generalizing after with
  | nil => exact absurd rfl hawaits.ne_nil
  | bracket hk _ ih =>
    obtain ⟨after', rfl, hfewer⟩ := hawaits.of_openBracket hk
    have := (ih hp.tail hfewer).1
    rw [surplus_append, surplus_openBracket hk]
    omega
  | minus hk _ ih | function hk _ ih =>
    refine ⟨?_, False.elim⟩
    rcases hawaits.of_append with ⟨after', rfl, hfewer⟩ | ⟨before', -, hlast⟩
    · have := (ih hp.tail hfewer).1
      rw [surplus_append, surplus_other (by simp [hk]) (by simp [hk])]
      omega
    · rcases cons_eq_append_cons hlast with ⟨-, -, rfl⟩ | ⟨_, -, hnil⟩
      · exact Int.le_refl 0
      · simp at hnil
  | infixed hop _ ih =>
    obtain ⟨op, hk⟩ := hp _ _ List.mem_cons_self
    obtain ⟨hroom, hleft⟩ := hop op hk
    obtain ⟨after', rfl, hfewer⟩ := exists_of_awaits_infixed hleft hk hawaits
    have := (ih hp.tail hfewer).2 hroom.settled
    rw [surplus_append, surplus_append, hleft.surplus_eq, surplus_other (by simp [hk]) (by simp [hk])]
    omega

/-- **The stack knows what is awaited.** -/
theorem Opened.awaited (h : Opened frames tokens) (hp : Proper frames) :
    Awaited tokens (awaited? frames) := by
  induction h with
  | nil => exact fun _ _ _ hawaits => hawaits.ne_nil rfl
  | bracket hk _ ih =>
    refine (ih hp.tail).append (fun before token after hawaits => ?_) fun _ _ _ hawaits =>
      hawaits.concat (by rw [Token.endsOperand, hk])
    obtain ⟨after', -, hfewer⟩ := hawaits.of_openBracket hk
    exact ⟨after', hfewer⟩
  | minus hk hopen _ =>
    exact ⟨_, _, _, awaitsInnermost_concat (.inr ⟨hk, hopen.not_endsOperand hp.tail⟩), rfl⟩
  | function hk _ _ => exact ⟨_, _, _, awaitsInnermost_concat (.inl ⟨_, hk⟩), rfl⟩
  | @infixed frames tokens left last a hop hopen ih =>
    obtain ⟨op, hk⟩ := hp _ _ List.mem_cons_self
    obtain ⟨hroom, hleft⟩ := hop op hk
    refine (ih hp.tail).append (fun before token after hawaits => ?_) fun before token after hawaits =>
      hawaits.append fun inner rest b heq hb => ?_
    · obtain ⟨after', -, hfewer⟩ := exists_of_awaits_infixed hleft hk hawaits
      exact ⟨after', hfewer⟩
    · -- a bracket behind the minus or function is still open
      have hafter := (hopen.surplus_of_awaits hp.tail hawaits).2 hroom.settled
      have hinner : 0 ≤ surplus inner := by
        rcases List.append_eq_append_iff.mp heq with ⟨more, rfl, hmore⟩ | ⟨_, hprefix, -⟩
        · rw [surplus_append, hleft.surplus_eq, Int.zero_add]
          rcases List.singleton_eq_append_iff.mp hmore with ⟨rfl, -⟩ | ⟨rfl, -⟩
          · exact Int.le_refl 0
          · exact Int.le_of_eq (surplus_other (by simp [hk]) (by simp [hk])).symm
        · exact hleft.surplus_nonneg hprefix
      have := hb.surplus_eq
      rw [surplus_append] at this
      omega

/-! ### The end of the tokens -/

variable {r : Reading} {offset : Nat} {cause : ReadError}

/-- Where the input may not end, an operand is wanted, or a bracket is open behind an operand. -/
theorem Kept.finish_cases (h : r.Kept tokens) (hfinish : r.finish offset = .error cause) :
    (∃ frames, r = .wants frames ∧ cause = missing frames) ∨
      EndsOperand tokens ∧ cause = .unclosedBracket offset := by
  cases r with
  | wants frames =>
    cases hfinish
    exact .inl ⟨frames, rfl, rfl⟩
  | done a => exact absurd h.reached id
  | holds frames a =>
    obtain ⟨⟨before, inner, rfl, hopen, hsettled, ha⟩, hp⟩ := h
    obtain ⟨frames', a', hreduce, hsub⟩ :=
      Proper.exists_reduce hp (Token.endAt offset).kind.precedence a
    obtain ⟨before', inner', q', -, -, hsettled', hroom, -⟩ :=
      reduce_opened hopen hsettled (.four frames) (Token.Kind.precedence_le _) (by decide) ha hreduce
    have hclose : (holds frames a).step (.endAt offset) = close (.endAt offset) frames' a' :=
      step_holds hreduce
    rw [finish, hclose] at hfinish
    have hle : (Token.endAt offset).kind.precedence ≤ 0 := show (-1 : Int) ≤ 0 by decide
    obtain rfl | ⟨rest, rfl⟩ := (hp.mono hsub).of_reduced hsettled' hroom hle
    · cases hfinish
    · cases hfinish
      exact .inr ⟨ha.endsOperand.append before, rfl⟩

end Reading

/-! ### Errors -/

/-- The error that says what the tokens lack at their end. -/
structure ReportsEnd (tokens : List Token) (cause : ReadError) : Prop where
  /-- There are no tokens at all. -/
  emptyInput : cause = .emptyInput ↔ tokens = []
  /-- The tokens end with an operand, and a bracket is still open behind the last of them. -/
  unclosedBracket (offset : Nat) : cause = .unclosedBracket offset ↔
    EndsOperand tokens ∧ ∃ last, tokens.getLast? = some last ∧ last.span.stop = offset
  /-- An operand must come next, and with it the argument of a minus or function. -/
  missingArgument (name : String) : cause = .missingArgument name ↔
    tokens ≠ [] ∧ ¬ EndsOperand tokens ∧
      ∃ before token after, AwaitsInnermost tokens before token after ∧ token.text = name
  /-- An operand must come next, and no argument is awaited. -/
  missingOperand : cause = .missingOperand ↔
    tokens ≠ [] ∧ ¬ EndsOperand tokens ∧ ∀ before token after, ¬ Awaits tokens before token after

namespace ReportsEnd

variable {tokens : List Token} {last : Token} {frames : List Frame}

theorem nil : ReportsEnd [] .emptyInput where
  emptyInput := iff_of_true rfl rfl
  unclosedBracket _ := iff_of_false nofun fun h => not_endsOperand_nil h.1
  missingArgument _ := iff_of_false nofun fun h => h.1 rfl
  missingOperand := iff_of_false nofun fun h => h.1 rfl

theorem of_endsOperand (hends : EndsOperand tokens) (hlast : tokens.getLast? = some last) :
    ReportsEnd tokens (.unclosedBracket last.span.stop) where
  emptyInput := iff_of_false nofun fun h => not_endsOperand_nil (h ▸ hends)
  unclosedBracket offset := by
    refine ⟨fun h => ⟨hends, last, hlast, ReadError.unclosedBracket.inj h⟩, ?_⟩
    rintro ⟨-, last', hlast', rfl⟩
    rw [Option.some_inj.mp (hlast.symm.trans hlast')]
  missingArgument _ := iff_of_false nofun fun h => h.2.1 hends
  missingOperand := iff_of_false nofun fun h => h.2.1 hends

theorem of_awaited (hne : tokens ≠ []) (hends : ¬ EndsOperand tokens)
    (h : Awaited tokens (Reading.awaited? frames)) : ReportsEnd tokens (Reading.missing frames) := by
  rw [Reading.missing]
  cases hname : Reading.awaited? frames with
  | none =>
    rw [hname] at h
    exact
      { emptyInput := iff_of_false nofun hne
        unclosedBracket := fun _ => iff_of_false nofun fun h => hends h.1
        missingArgument := fun _ => iff_of_false nofun fun ⟨_, _, _, _, _, hinnermost, _⟩ =>
          h _ _ _ hinnermost.toAwaits
        missingOperand := iff_of_true rfl ⟨hne, hends, h⟩ }
  | some name =>
    rw [hname] at h
    obtain ⟨before, token, after, hinnermost, rfl⟩ := h
    refine
      { emptyInput := iff_of_false nofun hne
        unclosedBracket := fun _ => iff_of_false nofun fun h => hends h.1
        missingArgument := fun name => ⟨fun h => ?_, ?_⟩
        missingOperand := iff_of_false nofun fun h => h.2.2 _ _ _ hinnermost.toAwaits }
    · exact ⟨hne, hends, before, token, after, hinnermost, ReadError.missingArgument.inj h⟩
    · rintro ⟨-, -, _, _, _, hinnermost', rfl⟩
      rw [hinnermost.unique hinnermost']

end ReportsEnd

namespace Formula

/-- Tokens that are all taken and yet not read lack something at their end. -/
theorem reportsEnd_of_run {tokens : List Token} {r : Reading} {cause : ReadError}
    (hrun : (Reading.wants []).run tokens = .ok r) (hr : r.Kept tokens)
    (herror : ofTokens tokens = .error cause) : ReportsEnd tokens cause := by
  unfold ofTokens at herror
  split at herror
  · next hlast =>
    cases herror
    rw [List.getLast?_eq_none_iff.mp hlast]
    exact .nil
  · next last hlast =>
    rw [hrun] at herror
    rcases hr.finish_cases herror with ⟨frames, rfl, rfl⟩ | ⟨hends, rfl⟩
    · obtain ⟨hopen, hproper⟩ := hr
      have hne : tokens ≠ [] := by
        rintro rfl
        cases hlast
      exact .of_awaited hne (Reading.Opened.not_endsOperand hopen hproper)
        (Reading.Opened.awaited hopen hproper)
    · exact .of_endsOperand hends hlast

/-- The error that names the first token with which the tokens cannot be continued: where it follows
an operand behind an open bracket, and is itself the beginning of an operand, a closing bracket is
missing in front of it. -/
def ReportsToken (tokens : List Token) (cause : ReadError) : Prop :=
  ∃ before token after, tokens = before ++ token :: after ∧
    Viable before ∧ ¬ Viable (before ++ [token]) ∧
    cause = if token.beginsOperand ∧ EndsOperand before ∧ 0 < surplus before then
        .unclosedBracket token.span.start
      else .unexpected token

/-- **The earliest error is reported, with its kind.** Tokens that are not read can be continued, and
then the error is that of their end; or there is a first token with which they cannot, and the error
is that of this token. -/
theorem ofTokens_eq_error {tokens : List Token} (hreg : Token.Regular tokens) {cause : ReadError}
    (herror : ofTokens tokens = .error cause) :
    (∃ more a, more ≠ [] ∧ ofTokens (tokens ++ more) = .ok a) ∧ ReportsEnd tokens cause ∨
      ReportsToken tokens cause := by
  have hreg : Token.Regular ([] ++ tokens) := hreg
  rcases Reading.kept_start.run_cases hreg with
    ⟨r, hrun, hr⟩ | ⟨before, token, after, r, rfl, hrun, hr, hstep⟩
  · refine .inl ⟨?_, reportsEnd_of_run hrun hr herror⟩
    obtain ⟨more, a, hread⟩ := viable_of_kept hr
    refine ⟨more, a, ?_, hread⟩
    rintro rfl
    rw [List.append_nil, List.nil_append, herror] at hread
    cases hread
  · refine .inr ⟨before, token, after, rfl, viable_of_kept hr, not_viable_of_step hrun hstep, ?_⟩
    rw [ofTokens_of_run (Reading.run_append_eq_error hrun hstep)] at herror
    exact (Except.error.inj herror).symm

/-- The bracket is part of the argument that is missing. -/
theorem ofTokens_eq_error_bracket :
    let tokens : List Token := [⟨.function .sin, "sin", ⟨0, 3⟩⟩, ⟨.openBracket, "(", ⟨3, 4⟩⟩,
      ⟨.var, "x", ⟨4, 5⟩⟩, ⟨.operator .add, "+", ⟨5, 6⟩⟩]
    Token.Regular tokens ∧ ofTokens tokens = .error (.missingArgument "sin") ∧
      ((∃ more a, more ≠ [] ∧ ofTokens (tokens ++ more) = .ok a) ∧
          ReportsEnd tokens (.missingArgument "sin") ∨
        ReportsToken tokens (.missingArgument "sin")) := by
  intro tokens
  have hreg : Token.Regular tokens :=
    ⟨by decide, by decide, by simp [tokens, Token.endsOperand]⟩
  have herror : ofTokens tokens = .error (.missingArgument "sin") := by rfl
  exact ⟨hreg, herror, ofTokens_eq_error hreg herror⟩

end Formula

end Fluxion
