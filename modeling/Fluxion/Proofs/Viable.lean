import Fluxion.Proofs.Accepted

/-!
# Beginnings of formulas

A list of tokens is viable if it can be continued to one that is read (`Formula.Viable`). Whatever the
reader has taken without an error is viable: if it wants an operand, a variable can follow, and then
the open brackets can be closed (`Reading.Opened.exists_completion`). And if it refuses a token, then
nothing that begins so is read, since it goes from left to right and never back. So the first token
that is refused is the first that makes the tokens unfit, and which error it gives can be told from
the tokens in front of it (`Reading.Kept.step_cases`).

This is said of tokens without an end of input, in which numerals are such and no function follows an
operand (`Token.Regular`). A function in such a place is taken for an operator, and refused too late.
-/

namespace Fluxion

/-! ### The ends of operands -/

/-- A token that can stand at the end of an operand. -/
def Token.endsOperand (token : Token) : Bool :=
  match token.kind with
  | .numeral | .var | .constant _ | .closeBracket => true
  | .operator _ | .openBracket | .function _ | .endOfInput => false

/-- A token that can stand at the beginning of an operand, and is no minus and no function. -/
def Token.beginsOperand (token : Token) : Bool :=
  match token.kind with
  | .numeral | .var | .constant _ | .openBracket => true
  | .operator _ | .closeBracket | .function _ | .endOfInput => false

/-- What can neither join two operands nor close something begins an operand. -/
theorem Token.beginsOperand_of_precedence {token : Token} (h : ¬ 0 < token.kind.precedence)
    (hclose : token.kind ≠ .closeBracket) (hend : token.kind ≠ .endOfInput) :
    token.beginsOperand = true := by
  unfold beginsOperand
  cases hk : token.kind with
  | numeral | var | constant | openBracket => rfl
  | operator op => exact absurd op.precedence_pos (by rwa [hk] at h)
  | function f => exact absurd (by decide) (show ¬ (0 : Int) < 4 by rwa [hk] at h)
  | closeBracket => exact absurd hk hclose
  | endOfInput => exact absurd hk hend

/-- The tokens end with a complete operand. -/
def EndsOperand (tokens : List Token) : Prop := ∃ last ∈ tokens.getLast?, last.endsOperand = true

instance (tokens : List Token) : Decidable (EndsOperand tokens) :=
  inferInstanceAs (Decidable (∃ last ∈ tokens.getLast?, last.endsOperand = true))

theorem not_endsOperand_nil : ¬ EndsOperand [] := by
  rintro ⟨_, h, -⟩
  cases h

theorem endsOperand_concat (tokens : List Token) {token : Token} :
    EndsOperand (tokens ++ [token]) ↔ token.endsOperand = true := by
  simp [EndsOperand]

theorem EndsOperand.append {more : List Token} (h : EndsOperand more) (tokens : List Token) :
    EndsOperand (tokens ++ more) := by
  obtain ⟨last, hlast, hends⟩ := h
  exact ⟨last, by simp [List.getLast?_append, Option.mem_def.mp hlast], hends⟩

/-- What is spelled ends as an operand does. -/
theorem Spells.endsOperand {p : Int} {tokens : List Token} {a : Formula} (h : Spells p tokens a) :
    EndsOperand tokens := by
  induction h with
  | numeral hk | var hk | constant hk =>
    exact (endsOperand_concat []).mpr (by rw [Token.endsOperand, hk])
  | @brackets opening closing tokens _ _ hc =>
    exact (endsOperand_concat (opening :: tokens)).mpr (by rw [Token.endsOperand, hc])
  | minus _ _ ih | function _ _ ih => exact ih.append [_]
  | infixed _ _ _ _ ihr => exact (ihr.append [_]).append _
  | lift _ ih => exact ih

/-! ### Open brackets -/

/-- How many more brackets are opened than closed. -/
def surplus (tokens : List Token) : Int :=
  tokens.countP (·.kind = .openBracket) - tokens.countP (·.kind = .closeBracket)

theorem surplus_append (tokens more : List Token) :
    surplus (tokens ++ more) = surplus tokens + surplus more := by
  simp only [surplus, List.countP_append]
  omega

theorem surplus_cons (token : Token) (tokens : List Token) :
    surplus (token :: tokens) = surplus [token] + surplus tokens := surplus_append [token] tokens

theorem surplus_openBracket {token : Token} (h : token.kind = .openBracket) : surplus [token] = 1 := by
  simp [surplus, h]

theorem surplus_closeBracket {token : Token} (h : token.kind = .closeBracket) :
    surplus [token] = -1 := by
  simp [surplus, h]

theorem surplus_other {token : Token} (ho : token.kind ≠ .openBracket)
    (hc : token.kind ≠ .closeBracket) : surplus [token] = 0 := by
  simp [surplus, ho, hc]

/-- What is spelled closes all its brackets, and never more than are open. -/
theorem Spells.surplus_eq {p : Int} {tokens : List Token} {a : Formula} (h : Spells p tokens a) :
    surplus tokens = 0 := by
  induction h with
  | numeral hk | var hk | constant hk => exact surplus_other (by simp [hk]) (by simp [hk])
  | brackets ho hc _ ih =>
    rw [surplus_cons, surplus_append, ih, surplus_openBracket ho, surplus_closeBracket hc]
    rfl
  | minus hk _ ih | function hk _ ih =>
    rw [surplus_cons, ih, surplus_other (by simp [hk]) (by simp [hk])]
    rfl
  | infixed hk _ _ ihl ihr =>
    rw [surplus_append, surplus_cons, ihl, ihr, surplus_other (by simp [hk]) (by simp [hk])]
    rfl
  | lift _ ih => exact ih

/-! ### Tokens that are looked at -/

/-- Tokens without an end of input, in which all numerals are such and no function directly follows
the end of an operand. -/
structure Token.Regular (tokens : List Token) : Prop where
  kind_ne_endOfInput : ∀ t ∈ tokens, t.kind ≠ .endOfInput
  isSome : ∀ t ∈ tokens, t.kind = .numeral → (Binary64.ofText? t.text).isSome = true
  chain : tokens.IsChain fun t t' => t.endsOperand = true → ∀ f, t'.kind ≠ .function f

theorem Token.Regular.of_append {tokens more : List Token} (h : Regular (tokens ++ more)) :
    Regular tokens where
  kind_ne_endOfInput t ht := h.kind_ne_endOfInput t (List.mem_append_left _ ht)
  isSome t ht := h.isSome t (List.mem_append_left _ ht)
  chain := h.chain.left_of_append

theorem Token.Regular.kind_ne_function {tokens : List Token} {token : Token}
    (h : Regular (tokens ++ [token])) (hends : EndsOperand tokens) (f : NamedFunction) :
    token.kind ≠ .function f := by
  obtain ⟨last, hlast, hends⟩ := hends
  exact (List.isChain_append.mp h.chain).2.2 last hlast token rfl hends f

namespace Reading

/-- What is open in a reading. -/
def stack : Reading → List Frame
  | .wants frames | .holds frames _ => frames
  | .done _ => []

variable {frames frames' : List Frame} {before inner tokens : List Token} {token : Token}
  {a : Formula} {r r' : Reading} {p : Int}

/-! ### Frames of operators -/

/-- Only operators wait for a right operand. -/
def Proper (frames : List Frame) : Prop :=
  ∀ a token, Frame.infixed a token ∈ frames → ∃ op, token.kind = .operator op

theorem Proper.mono (h : Proper frames) (hsub : frames' ⊆ frames) : Proper frames' :=
  fun a token hmem => h a token (hsub hmem)

theorem Proper.tail {frame : Frame} (h : Proper (frame :: frames)) : Proper frames :=
  h.mono (List.subset_cons_self _ _)

theorem Proper.cons {frame : Frame} (h : Proper frames)
    (hframe : ∀ a token, frame = .infixed a token → ∃ op, token.kind = .operator op) :
    Proper (frame :: frames) := by
  intro a token hmem
  rcases List.mem_cons.mp hmem with heq | hmem
  · exact hframe a token heq.symm
  · exact h a token hmem

/-- No operator is as tight as an operand. -/
theorem Proper.room_four (h : Proper frames) : Room 4 frames := by
  match frames, h with
  | [], _ | .bracket :: _, _ => trivial
  | .unary _ :: _, _ => exact Int.le_refl 4
  | .infixed a token :: _, h =>
    obtain ⟨op, hk⟩ := h a token List.mem_cons_self
    have := op.precedence_le
    simp only [Room, hk, Token.Kind.precedence]
    omega

theorem stack_hold_subset (a : Formula) (frames : List Frame) : (hold a frames).stack ⊆ frames := by
  fun_induction hold a frames with
  | case1 a token frames ih => exact List.Subset.trans ih (List.subset_cons_self _ _)
  | case2 => exact List.Subset.refl _

/-- Operators can always be closed. -/
theorem Proper.exists_reduce (h : Proper frames) (p : Int) (a : Formula) :
    ∃ frames' a', reduce p frames a = .ok (frames', a') ∧ frames' ⊆ frames := by
  induction frames generalizing a with
  | nil => exact ⟨_, _, rfl, List.Subset.refl _⟩
  | cons frame frames ih =>
    cases frame with
    | bracket | unary => exact ⟨_, _, rfl, List.Subset.refl _⟩
    | infixed left token =>
      obtain ⟨op, hk⟩ := h left token List.mem_cons_self
      rw [reduce]
      split
      · obtain ⟨frames', a', hreduce, hsub⟩ := ih h.tail (.binary op left a)
        refine ⟨frames', a', ?_, List.Subset.trans hsub (List.subset_cons_self _ _)⟩
        simp only [combine, hk]
        exact hreduce
      · exact ⟨_, _, rfl, List.Subset.refl _⟩

/-- Where brackets and the ends of input are read, all operators have been closed. -/
theorem Proper.of_reduced (h : Proper frames) (hs : Settled frames) (hroom : Room p frames)
    (hp : p ≤ 0) : frames = [] ∨ ∃ rest, frames = .bracket :: rest := by
  match frames, h, hs, hroom with
  | [], _, _, _ => exact .inl rfl
  | .bracket :: rest, _, _, _ => exact .inr ⟨rest, rfl⟩
  | .infixed a token :: _, h, _, hroom =>
    obtain ⟨op, hk⟩ := h a token List.mem_cons_self
    have hlt : op.precedence < p := by simpa only [Room, hk, Token.Kind.precedence] using hroom
    have := op.precedence_pos
    omega

/-! ### What open frames tell of the tokens -/

/-- Open frames wait for an operand. -/
theorem Opened.not_endsOperand (h : Opened frames tokens) (hp : Proper frames) :
    ¬ EndsOperand tokens := by
  cases h with
  | nil => exact not_endsOperand_nil
  | bracket hk | minus hk | function hk => simp [endsOperand_concat, Token.endsOperand, hk]
  | infixed =>
    obtain ⟨op, hk⟩ := hp _ _ List.mem_cons_self
    rw [← List.append_assoc, endsOperand_concat, Token.endsOperand, hk]
    exact Bool.false_ne_true

/-- The open brackets are those that the tokens have not closed. -/
theorem Opened.surplus_eq (h : Opened frames tokens) (hp : Proper frames) :
    surplus tokens = frames.count .bracket := by
  induction h with
  | nil => rfl
  | bracket hk _ ih =>
    rw [surplus_append, ih hp.tail, surplus_openBracket hk, List.count_cons_self]
    rfl
  | minus hk _ ih | function hk _ ih =>
    rw [surplus_append, ih hp.tail, surplus_other (by simp [hk]) (by simp [hk]), List.count_cons]
    simp
  | infixed hop _ ih =>
    obtain ⟨op, hk⟩ := hp _ _ List.mem_cons_self
    rw [surplus_append, surplus_append, ih hp.tail, (hop op hk).2.surplus_eq,
      surplus_other (by simp [hk]) (by simp [hk]), List.count_cons]
    simp

/-- The operand that the open frames wait for can be followed by all closing brackets. -/
theorem Opened.exists_completion (h : Opened frames before) (hp : Proper frames)
    (hroom : Room p frames) (hpos : 1 ≤ p) (ha : Spells p inner a) :
    ∃ more b, Spells 1 (before ++ inner ++ more) b := by
  induction h generalizing p inner a with
  | nil => exact ⟨[], a, by simpa using ha.lower hpos⟩
  | @bracket frames tokens token hk _ ih =>
    let closing : Token := ⟨.closeBracket, ")", .emptyAt 0⟩
    have hbrackets : Spells 4 (token :: (inner ++ [closing])) a :=
      .brackets hk rfl (ha.lower hpos)
    obtain ⟨more, b, hb⟩ := ih hp.tail hp.tail.room_four (by decide) hbrackets
    exact ⟨closing :: more, b, by simpa using hb⟩
  | @minus frames tokens token hk _ ih =>
    obtain ⟨more, b, hb⟩ := ih hp.tail hp.tail.room_four (by decide) (.minus hk (ha.lower hroom))
    exact ⟨more, b, by simpa using hb⟩
  | @function frames tokens token f hk _ ih =>
    obtain ⟨more, b, hb⟩ := ih hp.tail hp.tail.room_four (by decide) (.function hk (ha.lower hroom))
    exact ⟨more, b, by simpa using hb⟩
  | @infixed frames tokens left token c hop _ ih =>
    obtain ⟨op, hk⟩ := hp _ _ List.mem_cons_self
    obtain ⟨hroom', hleft⟩ := hop op hk
    have hlt : op.precedence < p := by simpa only [Room, hk, Token.Kind.precedence] using hroom
    obtain ⟨more, b, hb⟩ := ih hp.tail hroom' op.precedence_pos (.infixed hk hleft (ha.lower hlt))
    exact ⟨more, b, by simpa using hb⟩

/-! ### Steps -/

/-- The reading accounts for the tokens, and only operators wait in it for a right operand. -/
structure Kept (r : Reading) (tokens : List Token) : Prop where
  reached : Reached r tokens
  proper : Proper r.stack

theorem kept_start : Kept (.wants []) [] := ⟨Opened.nil, nofun⟩

/-- The error of a token that cannot stand behind the tokens. -/
def blame (tokens : List Token) (token : Token) : ReadError :=
  if token.beginsOperand ∧ EndsOperand tokens ∧ 0 < surplus tokens then
    .unclosedBracket token.span.start
  else
    .unexpected token

theorem blame_of_beginsOperand (tokens : List Token) (h : token.beginsOperand = false) :
    blame tokens token = .unexpected token := by
  rw [blame, if_neg]
  exact fun hblame => Bool.false_ne_true (h.symm.trans hblame.1)

/-- Where an operand is wanted, a token is taken or is out of place. -/
theorem Proper.takeOperand_cases (hp : Proper frames)
    (hreg : Token.Regular (tokens ++ [token])) :
    (∃ r, Reading.takeOperand frames token = .ok r ∧ Proper r.stack) ∨
      Reading.takeOperand frames token = .error (blame tokens token) := by
  have hmem : token ∈ tokens ++ [token] := by simp
  have hhold (a : Formula) : Proper (hold a frames).stack := hp.mono (stack_hold_subset a frames)
  unfold Reading.takeOperand
  cases hk : token.kind with
  | numeral =>
    obtain ⟨value, hvalue⟩ := Option.isSome_iff_exists.mp (hreg.isSome token hmem hk)
    simp only [hvalue]
    exact .inl ⟨_, rfl, hhold _⟩
  | var | constant => exact .inl ⟨_, rfl, hhold _⟩
  | openBracket | function => exact .inl ⟨_, rfl, hp.cons nofun⟩
  | operator op =>
    cases op with
    | sub => exact .inl ⟨_, rfl, hp.cons nofun⟩
    | add | mul | div | pow =>
      exact .inr (by rw [blame_of_beginsOperand tokens (by rw [Token.beginsOperand, hk])])
  | closeBracket =>
    exact .inr (by rw [blame_of_beginsOperand tokens (by rw [Token.beginsOperand, hk])])
  | endOfInput => exact absurd hk (hreg.kind_ne_endOfInput token hmem)

/-- After an operand, a token is taken, or is out of place: then it would have to close the innermost
bracket, or nothing can follow at all. -/
theorem Kept.takeOperator_cases (h : Kept (.holds frames a) tokens)
    (hreg : Token.Regular (tokens ++ [token])) :
    (∃ r, Reading.takeOperator frames a token = .ok r ∧ Proper r.stack) ∨
      Reading.takeOperator frames a token = .error (blame tokens token) := by
  obtain ⟨⟨before, inner, rfl, hopen, hsettled, ha⟩, hp⟩ := h
  have hends : EndsOperand (before ++ inner) := ha.endsOperand.append before
  obtain ⟨frames', a', hreduce, hsub⟩ := Proper.exists_reduce hp token.kind.precedence a
  obtain ⟨before', inner', q', heq, hopen', hsettled', hroom, -, -, ha'⟩ :=
    reduce_opened hopen hsettled (.four frames) token.kind.precedence_le (by decide) ha hreduce
  have hp' : Proper frames' := hp.mono hsub
  have hclose : Reading.takeOperator frames a token =
      if 0 < token.kind.precedence then .ok (.wants (.infixed a' token :: frames'))
      else close token frames' a' := step_holds hreduce
  rw [hclose]
  split
  · next hpos =>
    refine .inl ⟨_, rfl, hp'.cons fun b t heq => ?_⟩
    obtain ⟨rfl, rfl⟩ := Frame.infixed.inj heq
    cases hk : token.kind with
    | operator op => exact ⟨op, rfl⟩
    | function f => exact absurd hk (hreg.kind_ne_function hends f)
    | numeral | var | constant | openBracket | closeBracket | endOfInput =>
      exact absurd hpos (by simp [hk, Token.Kind.precedence])
  · next hpos =>
    have hsurplus : surplus (before ++ inner) = frames'.count .bracket := by
      rw [heq, surplus_append, hopen'.surplus_eq hp', ha'.surplus_eq, Int.add_zero]
    have hend : token.isEnd = false :=
      decide_eq_false (hreg.kind_ne_endOfInput token (by simp))
    obtain rfl | ⟨rest, rfl⟩ := hp'.of_reduced hsettled' hroom (Int.not_lt.mp hpos)
    · have hnone : close token [] a' = .error (.unexpected token) := by simp [close, hend]
      rw [hnone, blame, if_neg (by simp [hsurplus])]
      exact .inr rfl
    · rw [close]
      split
      · exact .inl ⟨_, rfl, hp'.tail.mono (stack_hold_subset a' rest)⟩
      · next hkind =>
        have hbegins : token.beginsOperand = true :=
          Token.beginsOperand_of_precedence hpos hkind (hreg.kind_ne_endOfInput token (by simp))
        have hunclosed : 0 < surplus (before ++ inner) := by
          rw [hsurplus, List.count_cons_self]
          omega
        rw [blame, if_pos ⟨hbegins, hends, hunclosed⟩]
        exact .inr rfl

/-- **A token is taken or blamed.** -/
theorem Kept.step_cases (h : r.Kept tokens) (hreg : Token.Regular (tokens ++ [token])) :
    (∃ r', r.step token = .ok r' ∧ r'.Kept (tokens ++ [token])) ∨
      r.step token = .error (blame tokens token) := by
  have hend := hreg.kind_ne_endOfInput token (by simp)
  have hcases : (∃ r', r.step token = .ok r' ∧ Proper r'.stack) ∨
      r.step token = .error (blame tokens token) := by
    cases r with
    | wants frames => exact h.proper.takeOperand_cases hreg
    | holds frames a => exact h.takeOperator_cases hreg
    | done a => exact absurd h.reached id
  exact hcases.imp_left fun ⟨r', hstep, hp⟩ => ⟨r', hstep, h.reached.step hend hstep, hp⟩

/-! ### Lists of tokens -/

/-- The first token that is not taken ends the reading. -/
theorem run_append_eq_error {before more : List Token} {cause : ReadError}
    (hrun : r.run before = .ok r') (hstep : r'.step token = .error cause) :
    r.run (before ++ token :: more) = .error cause := by
  rw [run_append, hrun, Except.bind, run_cons, hstep]
  rfl

/-- All tokens are taken, or there is a first one that is blamed. -/
theorem Kept.run_cases {more : List Token} (h : r.Kept tokens)
    (hreg : Token.Regular (tokens ++ more)) :
    (∃ r', r.run more = .ok r' ∧ r'.Kept (tokens ++ more)) ∨
      ∃ before token after r', more = before ++ token :: after ∧ r.run before = .ok r' ∧
        r'.Kept (tokens ++ before) ∧ r'.step token = .error (blame (tokens ++ before) token) := by
  induction more generalizing r tokens with
  | nil => exact .inl ⟨r, rfl, by rwa [List.append_nil]⟩
  | cons token more ih =>
    rw [List.append_cons] at hreg
    rcases h.step_cases hreg.of_append with ⟨next, hstep, hnext⟩ | hstep
    · rcases ih hnext hreg with ⟨r', hrun, hr'⟩ | ⟨before, t, after, r', heq, hrun, hr', hstep'⟩
      · refine .inl ⟨r', ?_, by rwa [List.append_cons]⟩
        rw [run_cons, hstep]
        exact hrun
      · refine .inr ⟨token :: before, t, after, r', by rw [heq]; rfl, ?_, ?_, ?_⟩
        · rw [run_cons, hstep]
          exact hrun
        · rwa [List.append_cons]
        · rwa [List.append_cons]
    · exact .inr ⟨[], token, more, r, rfl, rfl, by rwa [List.append_nil], by rwa [List.append_nil]⟩

end Reading

/-! ### Viable tokens -/

namespace Formula

/-- The tokens are the beginning of tokens that are read. -/
def Viable (tokens : List Token) : Prop := ∃ more a, ofTokens (tokens ++ more) = .ok a

/-- What is taken without an error can be continued. -/
theorem viable_of_kept {r : Reading} {tokens : List Token} (h : r.Kept tokens) : Viable tokens := by
  obtain ⟨hreached, hproper⟩ := h
  cases r with
  | wants frames =>
    let token : Token := ⟨.var, "x", .emptyAt 0⟩
    have hvar : Spells 4 [token] .var := .var rfl
    obtain ⟨more, b, hb⟩ :=
      Reading.Opened.exists_completion hreached hproper hproper.room_four (by decide) hvar
    rw [List.append_assoc] at hb
    exact ⟨_, b, hb.ofTokens_eq⟩
  | holds frames a =>
    obtain ⟨before, inner, rfl, hopen, -, ha⟩ := hreached
    obtain ⟨more, b, hb⟩ := hopen.exists_completion hproper hproper.room_four (by decide) ha
    exact ⟨_, b, hb.ofTokens_eq⟩
  | done a => exact absurd hreached id

/-- An error in the course of the tokens is the result. -/
theorem ofTokens_of_run {tokens : List Token} {cause : ReadError}
    (h : (Reading.wants []).run tokens = .error cause) : ofTokens tokens = .error cause := by
  unfold ofTokens
  split
  · next hlast =>
    rw [List.getLast?_eq_none_iff.mp hlast] at h
    cases h
  · rw [h]
    rfl

/-- What is refused cannot be continued. -/
theorem not_viable_of_step {r : Reading} {before : List Token} {token : Token} {cause : ReadError}
    (hrun : (Reading.wants []).run before = .ok r) (hstep : r.step token = .error cause) :
    ¬ Viable (before ++ [token]) := by
  rintro ⟨more, a, hread⟩
  rw [List.append_assoc, List.singleton_append,
    ofTokens_of_run (Reading.run_append_eq_error hrun hstep)] at hread
  cases hread

/-- **What can be continued is what is taken without an error.** -/
theorem viable_iff_exists_kept {tokens : List Token} (hreg : Token.Regular tokens) :
    Viable tokens ↔ ∃ r, (Reading.wants []).run tokens = .ok r ∧ r.Kept tokens := by
  have hreg : Token.Regular ([] ++ tokens) := hreg
  refine ⟨fun ⟨more, a, hread⟩ => ?_, fun ⟨r, _, h⟩ => viable_of_kept h⟩
  rcases Reading.kept_start.run_cases hreg with
    ⟨r, hrun, hr⟩ | ⟨before, token, after, r, rfl, hrun, hr, hstep⟩
  · exact ⟨r, hrun, hr⟩
  · exact absurd ⟨after ++ more, a, by simpa using hread⟩ (not_viable_of_step hrun hstep)

/-- In tokens that can be continued, the kind of the last token tells whether an operand has ended. -/
theorem Viable.endsOperand_iff {tokens : List Token} (h : Viable tokens)
    (hreg : Token.Regular tokens) :
    EndsOperand tokens ↔ ∃ before inner a, tokens = before ++ inner ∧ Spells 4 inner a := by
  refine ⟨fun hends => ?_, ?_⟩
  · obtain ⟨r, -, hreached, hproper⟩ := (viable_iff_exists_kept hreg).mp h
    cases r with
    | wants frames => exact absurd hends (Reading.Opened.not_endsOperand hreached hproper)
    | holds frames a =>
      obtain ⟨before, inner, rfl, -, -, ha⟩ := hreached
      exact ⟨before, inner, a, rfl, ha⟩
    | done a => exact absurd hreached id
  · rintro ⟨before, inner, a, rfl, ha⟩
    exact ha.endsOperand.append before

end Formula

end Fluxion
