import Fluxion.Proofs.Ending
import Fluxion.Proofs.Viable

/-!
# Functions behind operands

A function can stand behind no operand (`Formula.not_viable_of_function`). The reader takes it there for an
operator that binds most tightly, and refuses it as soon as it has its right operand. So the function is
blamed if an operand follows, whatever stands behind that. Otherwise the operand is refused first, or the
input ends in it, and the error is the one that a power sign in place of the function would give
(`Formula.ofTokens_misplaced`): `x sin` lacks an operand, and `x sin )` has a bracket too many.

That nothing but the missing operand is seen in the second case is a fact about the stack. As long as an
operand is not complete, the reader works on frames of its own, on top of those that were open before
(`Reading.Anchored.run_onTopOf`), and the outermost of its own frames is a bracket, a minus or a function, so
that closing operators ends there.
-/

namespace Fluxion

/-! ### What is spelled is regular -/

namespace Spells

variable {p : Int} {tokens : List Token} {a : Formula}

theorem token_mem (h : Spells p tokens a) : ∀ t ∈ tokens, t.kind ≠ .endOfInput ∧
    (t.kind = .numeral → (Binary64.ofText? t.text).isSome = true) := by
  induction h with
  | numeral hk hv => simp [hk, hv]
  | var hk | constant hk => simp [hk]
  | brackets ho hc _ ih => simpa [or_imp, forall_and, ho, hc] using ih
  | minus hk _ ih | function hk _ ih => simpa [or_imp, forall_and, hk] using ih
  | infixed hk _ _ ihl ihr =>
    intro t ht
    rcases List.mem_append.mp ht with ht | ht
    · exact ihl t ht
    · rcases List.mem_cons.mp ht with rfl | ht
      · simp [hk]
      · exact ihr t ht
  | lift _ ih => exact ih

/-- What is spelled begins with an operand. -/
theorem exists_operand (h : Spells p tokens a) :
    ∃ inner rest b, tokens = inner ++ rest ∧ Spells 4 inner b := by
  induction h using operandInduction with
  | operand h => exact ⟨_, [], _, (List.append_nil _).symm, h⟩
  | infixed hk hl hr ihl ihr =>
    obtain ⟨inner, rest, b, rfl, hb⟩ := ihl
    exact ⟨inner, _, b, List.append_assoc .., hb⟩
  | lift h ih => exact ih

theorem regular (h : Spells p tokens a) : Token.Regular tokens where
  kind_ne_endOfInput t ht := (h.token_mem t ht).1
  isSome t ht := (h.token_mem t ht).2
  chain := h.isChain.imp fun t t' hadjacent hends f hf => by
    rcases hadjacent with (hk | ⟨_, hk⟩ | ⟨_, hk⟩) | hk | ⟨_, hk⟩
    · simp [Token.endsOperand, hk] at hends
    · simp [Token.endsOperand, hk] at hends
    · simp [Token.endsOperand, hk] at hends
    · simp [hk] at hf
    · simp [hk] at hf

end Spells

namespace Formula

variable {tokens before after : List Token} {token : Token} {f : NamedFunction}

/-- Tokens that can be continued are regular: they are spelled, together with what comes before the end of
the input. -/
theorem Viable.regular (h : Viable tokens) (hend : ∀ t ∈ tokens, t.kind ≠ .endOfInput) :
    Token.Regular tokens := by
  obtain ⟨more, a, hread⟩ := h
  cases hfind : more.find? Token.isEnd with
  | none =>
    have hmore : ∀ t ∈ more, t.kind ≠ .endOfInput := by
      simpa [Token.isEnd] using hfind
    exact (Spells.of_ofTokens (List.forall_mem_append.mpr ⟨hend, hmore⟩) hread).regular.of_append
  | some last =>
    obtain ⟨hlast, inner, rest, rfl, hinner⟩ := List.find?_eq_some_iff_append.mp hfind
    have hmore : ∀ t ∈ inner, t.kind ≠ .endOfInput := by
      simpa [Token.isEnd] using hinner
    rw [← List.append_assoc, ofTokens_append_end_eq_bind (of_decide_eq_true hlast) rest 0] at hread
    obtain ⟨r, hrun, hfinish⟩ := exists_ok_of_bind hread
    have hstart : Reading.Reached (.wants []) [] := Reading.Opened.nil
    have hreached := hstart.run (List.forall_mem_append.mpr ⟨hend, hmore⟩) hrun
    cases hr : r.finish 0 with
    | error cause =>
      rw [hr] at hfinish
      cases hfinish
    | ok b =>
      have hspells : Spells 1 (tokens ++ inner) b := hreached.finish hr
      exact hspells.regular.of_append

/-- Behind an operand no function can stand. -/
theorem not_viable_of_function (hend : ∀ t ∈ before, t.kind ≠ .endOfInput)
    (hends : EndsOperand before) (hk : token.kind = .function f) : ¬ Viable (before ++ [token]) := by
  intro h
  have hreg := h.regular (List.forall_mem_append.mpr ⟨hend, by simp [hk]⟩)
  exact hreg.kind_ne_function hends f hk

end Formula

/-! ### Reading on top of more frames -/

namespace Reading

variable {frames frames' base rest : List Frame} {left : Formula} {before more : List Token}
  {token t : Token} {r r' : Reading} {a a' : Formula} {p : Int} {cause : ReadError}

/-- The reading with more frames below its own. -/
def onTopOf (base : List Frame) : Reading → Reading
  | .wants frames => .wants (frames ++ base)
  | .holds frames a => .holds (frames ++ base) a
  | .done a => .done a

/-- The outermost frame is no operator. -/
def Anchored (frames : List Frame) : Prop :=
  ∀ frame ∈ frames.getLast?, ∀ a token, frame ≠ .infixed a token

theorem Anchored.tail {frame : Frame} (h : Anchored (frame :: frames)) : Anchored frames := by
  cases frames with
  | nil => simp [Anchored]
  | cons => simpa [Anchored] using h

theorem Anchored.cons {frame : Frame} (h : Anchored frames)
    (hframe : frames = [] → ∀ a token, frame ≠ .infixed a token) : Anchored (frame :: frames) := by
  cases frames with
  | nil => simpa [Anchored] using hframe rfl
  | cons => simpa [Anchored] using h

theorem Anchored.hold (h : Anchored frames) (a : Formula) : Anchored (hold a frames).stack := by
  fun_induction Reading.hold a frames with
  | case1 a token frames ih => exact ih h.tail
  | case2 => exact h

theorem hold_onTopOf (a : Formula) (frames : List Frame) :
    hold a (frames ++ .infixed left token :: rest) =
      (hold a frames).onTopOf (.infixed left token :: rest) := by
  fun_induction hold a frames with
  | case1 a t frames ih => exact ih
  | case2 a frames hframes =>
    cases frames with
    | nil => rfl
    | cons frame frames =>
      cases frame with
      | bracket | infixed => rfl
      | unary => exact absurd rfl (hframes _ _)

/-- Operators are closed down to the outermost frame at most. -/
theorem Anchored.reduce_onTopOf (h : Anchored frames) (hne : frames ≠ []) (p : Int) (a : Formula)
    (base : List Frame) :
    reduce p (frames ++ base) a = (reduce p frames a).map (Prod.map (· ++ base) id) ∧
      ∀ frames' a', reduce p frames a = .ok (frames', a') → frames' ≠ [] ∧ Anchored frames' := by
  induction frames generalizing a with
  | nil => exact absurd rfl hne
  | cons frame frames ih =>
    cases frame with
    | bracket | unary =>
      refine ⟨rfl, fun frames' a' hreduce => ?_⟩
      cases hreduce
      exact ⟨hne, h⟩
    | infixed left token =>
      have hframes : frames ≠ [] := by
        rintro rfl
        exact h _ rfl _ _ rfl
      rw [List.cons_append, reduce, reduce]
      split
      · cases combine left token a with
        | error cause =>
          refine ⟨rfl, fun frames' a' hreduce => ?_⟩
          cases hreduce
        | ok b => exact ih h.tail hframes b
      · refine ⟨rfl, fun frames' a' hreduce => ?_⟩
        cases hreduce
        exact ⟨hne, h⟩

/-- Where frames are left, those below them are not closed. -/
theorem close_onTopOf (hne : frames ≠ []) (t : Token) (a : Formula) :
    close t (frames ++ .infixed left token :: rest) a =
      (close t frames a).map (onTopOf (.infixed left token :: rest)) := by
  match frames, hne with
  | .bracket :: frames, _ =>
    rw [List.cons_append, close, close]
    split
    · rw [hold_onTopOf]
      rfl
    · rfl
  | .unary _ :: _, _ | .infixed _ _ :: _, _ =>
    simp only [List.cons_append, close]
    split <;> rfl

theorem Anchored.close (h : Anchored frames) (hclose : Reading.close t frames a = .ok r) :
    Anchored r.stack := by
  unfold Reading.close at hclose
  split at hclose
  · split at hclose
    · cases hclose
      exact h.tail.hold _
    · cases hclose
  · split at hclose
    · cases hclose
      exact nofun
    · cases hclose

theorem takeOperand_onTopOf (hend : t.kind ≠ .endOfInput) (frames : List Frame) :
    takeOperand (frames ++ .infixed left token :: rest) t =
      (takeOperand frames t).map (onTopOf (.infixed left token :: rest)) := by
  unfold takeOperand
  simp only [hold_onTopOf]
  cases hk : t.kind with
  | numeral => cases Binary64.ofText? t.text <;> rfl
  | operator op => cases op <;> rfl
  | var | constant | openBracket | closeBracket | function => rfl
  | endOfInput => exact absurd hk hend

theorem Anchored.takeOperand (h : Anchored frames) (hread : Reading.takeOperand frames t = .ok r) :
    Anchored r.stack := by
  have hopen (frame : Frame) (hframe : ∀ a token, frame ≠ .infixed a token) :
      Anchored (frame :: frames) := h.cons fun _ => hframe
  unfold Reading.takeOperand at hread
  split at hread
  · split at hread
    · cases hread
      exact h.hold _
    · cases hread
  · cases hread
    exact h.hold _
  · cases hread
    exact h.hold _
  · cases hread
    exact hopen _ nofun
  · cases hread
    exact hopen _ nofun
  · cases hread
    exact hopen _ nofun
  all_goals cases hread

theorem Anchored.takeOperator_onTopOf (h : Anchored frames) (hne : frames ≠ []) (a : Formula)
    (t : Token) :
    takeOperator (frames ++ .infixed left token :: rest) a t =
      (takeOperator frames a t).map (onTopOf (.infixed left token :: rest)) ∧
      ∀ r, takeOperator frames a t = .ok r → Anchored r.stack := by
  obtain ⟨hover, hkeep⟩ := h.reduce_onTopOf hne t.kind.precedence a (.infixed left token :: rest)
  unfold takeOperator
  rw [hover]
  cases hreduce : reduce t.kind.precedence frames a with
  | error cause => exact ⟨rfl, nofun⟩
  | ok reduced =>
    obtain ⟨frames', a'⟩ := reduced
    obtain ⟨hne', hanchored⟩ := hkeep frames' a' hreduce
    simp only [Except.map, bind, Except.bind, Prod.map, id]
    split
    · refine ⟨rfl, fun r hr => ?_⟩
      cases hr
      exact hanchored.cons fun hnil => absurd hnil hne'
    · exact ⟨close_onTopOf hne' t a', fun r hr => hanchored.close hr⟩

/-- As long as its own operand is not complete, the reading does not look at the frames below. -/
theorem Anchored.run_onTopOf (hanchored : Anchored r.stack) (hreached : Reached r before)
    (hend : ∀ t ∈ more, t.kind ≠ .endOfInput)
    (hincomplete : ∀ inner after b, before ++ more = inner ++ after → ¬ Spells 4 inner b)
    (left : Formula) (token : Token) (rest : List Frame) :
    (r.onTopOf (.infixed left token :: rest)).run more =
      (r.run more).map (onTopOf (.infixed left token :: rest)) ∧
      ∀ r', r.run more = .ok r' → Anchored r'.stack := by
  induction more generalizing r before with
  | nil => exact ⟨rfl, fun r' hr' => by cases hr'; exact hanchored⟩
  | cons t more ih =>
    have hstep : (r.onTopOf (.infixed left token :: rest)).step t =
        (r.step t).map (onTopOf (.infixed left token :: rest)) ∧
        ∀ r', r.step t = .ok r' → Anchored r'.stack := by
      cases r with
      | done a => exact absurd hreached id
      | wants frames =>
        exact ⟨takeOperand_onTopOf (hend t (by simp)) frames, fun r' hr' => hanchored.takeOperand hr'⟩
      | holds frames a =>
        refine hanchored.takeOperator_onTopOf ?_ a t
        -- With none of its own frames left, its operand would be complete.
        rintro rfl
        obtain ⟨before', inner, rfl, hopen, -, ha⟩ := hreached
        cases hopen
        exact hincomplete inner (t :: more) a rfl ha
    obtain ⟨hover, hkeep⟩ := hstep
    rw [run_cons, run_cons, hover]
    cases hnext : r.step t with
    | error cause => exact ⟨rfl, nofun⟩
    | ok next =>
      exact ih (hkeep next hnext) (hreached.step (hend t (by simp)) hnext)
        (fun t' ht' => hend t' (List.mem_cons_of_mem _ ht')) (by simpa using hincomplete)

theorem missing_append {rest' : List Frame} (h : awaited? rest = awaited? rest')
    (frames : List Frame) : missing (frames ++ rest) = missing (frames ++ rest') := by
  have hawaited : awaited? (frames ++ rest) = awaited? (frames ++ rest') := by
    induction frames with
    | nil => exact h
    | cons frame frames ih =>
      cases frame with
      | unary => rfl
      | bracket | infixed => exact ih
  rw [missing, missing, hawaited]

/-- And where the input ends, it fails. Of the frames below, only the minus signs and functions tell
what is missing. -/
theorem Anchored.finish_onTopOf {left' : Formula} {token' : Token} {rest' : List Frame}
    (hanchored : Anchored r.stack) (hreached : Reached r before)
    (hincomplete : ∀ inner after b, before = inner ++ after → ¬ Spells 4 inner b)
    (hrest : awaited? rest = awaited? rest') (offset : Nat) :
    ∃ cause, (r.onTopOf (.infixed left token :: rest)).finish offset = .error cause ∧
      (r.onTopOf (.infixed left' token' :: rest')).finish offset = .error cause := by
  cases r with
  | done a => exact absurd hreached id
  | wants frames =>
    have hbelow : awaited? (.infixed left' token' :: rest') = awaited? (.infixed left token :: rest) :=
      hrest.symm
    exact ⟨_, rfl, congrArg Except.error (missing_append hbelow frames)⟩
  | holds frames a =>
    have hanchored : Anchored frames := hanchored
    obtain ⟨cause, hcause⟩ : ∃ cause, takeOperator frames a (.endAt offset) = .error cause := by
      cases hfinish : (holds frames a).finish offset with
      | ok b =>
        obtain ⟨inner, after, c, heq, hc⟩ := (hreached.finish hfinish).exists_operand
        exact absurd hc (hincomplete inner after c heq)
      | error cause =>
        have hlast : (Token.endAt offset).kind = .endOfInput := rfl
        have hstep := step_end hlast (holds frames a) offset
        rw [hfinish] at hstep
        exact ⟨_, hstep⟩
    have hne : frames ≠ [] := by
      rintro rfl
      cases hcause
    have hfails (left : Formula) (token : Token) (rest : List Frame) :
        ((holds frames a).onTopOf (.infixed left token :: rest)).finish offset = .error cause := by
      rw [onTopOf, finish, step, (hanchored.takeOperator_onTopOf hne a _).1, hcause]
      rfl
    exact ⟨cause, hfails left token rest, hfails left' token' rest'⟩

/-- Tokens that do not begin with an operand are refused alike behind all operators that stand on the same
minus signs and functions. -/
theorem exists_error_of_incomplete (hend : ∀ t ∈ more, t.kind ≠ .endOfInput)
    (hincomplete : ∀ inner after b, more = inner ++ after → ¬ Spells 4 inner b)
    {left' : Formula} {token' : Token} {rest' : List Frame} (hrest : awaited? rest = awaited? rest')
    (offset : Nat) :
    ∃ cause,
      ((wants (.infixed left token :: rest)).run more).bind (·.finish offset) = .error cause ∧
      ((wants (.infixed left' token' :: rest')).run more).bind (·.finish offset) = .error cause := by
  have hanchored : Anchored (wants []).stack := nofun
  have hreached : Reached (wants []) [] := Opened.nil
  have hrun (left : Formula) (token : Token) (rest : List Frame) :
      (wants (.infixed left token :: rest)).run more =
        ((wants []).run more).map (onTopOf (.infixed left token :: rest)) :=
    (hanchored.run_onTopOf hreached hend hincomplete left token rest).1
  rw [hrun, hrun]
  cases hmore : (wants []).run more with
  | error cause => exact ⟨cause, rfl, rfl⟩
  | ok r =>
    have hanchored' := (hanchored.run_onTopOf hreached hend hincomplete left token rest).2 r hmore
    exact hanchored'.finish_onTopOf (hreached.run hend hmore) hincomplete hrest offset

/-! ### Functions as operators -/

/-- Closing operators leaves what is awaited. -/
theorem awaited?_reduce (h : reduce p frames a = .ok (frames', a')) :
    awaited? frames' = awaited? frames := by
  fun_induction reduce p frames a with
  | case1 left token frames right hle ih =>
    obtain ⟨b, -, hreduce⟩ := exists_ok_of_bind h
    exact ih b hreduce
  | case2 | case3 =>
    cases h
    rfl

/-- Whatever follows the right operand of a function, the function is refused. -/
theorem step_holds_function {f : NamedFunction} (hk : token.kind = .function f) (frames : List Frame)
    (left a : Formula) (t : Token) :
    (holds (.infixed left token :: frames) a).step t = .error (.unexpected token) := by
  have hle : t.kind.precedence ≤ token.kind.precedence := by
    rw [hk]
    exact t.kind.precedence_le
  rw [step, takeOperator, reduce, if_pos hle]
  simp only [combine, hk]
  rfl

/-- A reading that refuses every token refuses the rest of the input, also if there is none. -/
theorem bind_finish_of_step (h : ∀ t, r.step t = .error cause) (tokens : List Token) (offset : Nat) :
    (r.run tokens).bind (·.finish offset) = .error cause := by
  cases tokens with
  | nil =>
    show r.finish offset = .error cause
    rw [finish, h]
    rfl
  | cons t tokens =>
    rw [run_cons, h]
    rfl

end Reading

open Reading in
/-- An operand is taken whole, whatever is open. -/
theorem Spells.run_hold {p : Int} {tokens : List Token} {a : Formula} (h : Spells p tokens a)
    (hp : 4 ≤ p) (frames : List Frame) : run (.wants frames) tokens = .ok (hold a frames) := by
  induction h generalizing frames with
  | numeral hk hv => simp only [run_singleton, step, takeOperand, hk, hv]
  | var hk | constant hk => simp only [run_singleton, step, takeOperand, hk]
  | @brackets opening closing tokens a ho hc htokens _ =>
    obtain ⟨r, hr, alike⟩ := htokens.run_eq (show Room 1 (.bracket :: frames) from trivial)
    have hopen : step (.wants frames) opening = .ok (.wants (.bracket :: frames)) := by
      simp only [step, takeOperand, ho]
    have hclose : r.step closing = .ok (hold a frames) := by
      rw [alike closing (by rw [hc]; decide)]
      exact step_holds_bracket hc frames a
    rw [run_cons, hopen, Except.bind, run_append, hr, Except.bind, run_singleton, hclose]
  | @minus token tokens a hk _ ih | @function token f tokens a hk _ ih =>
    have hstep : step (.wants frames) token = .ok (.wants (.unary token :: frames)) := by
      simp only [step, takeOperand, hk]
    rw [run_cons, hstep, Except.bind, ih (Int.le_refl 4)]
    simp only [hold, applyUnary, hk]
  | @infixed _ op => exact absurd op.precedence_le (by omega)
  | lift _ ih => exact ih (by omega) frames

namespace Formula

theorem Viable.exists_holds (h : Viable before) (hend : ∀ t ∈ before, t.kind ≠ .endOfInput)
    (hends : EndsOperand before) : ∃ frames a, (Reading.wants []).run before = .ok (.holds frames a) ∧
      Reading.Proper frames := by
  obtain ⟨r, hrun, hreached, hproper⟩ := (viable_iff_exists_kept (h.regular hend)).mp h
  cases r with
  | wants frames => exact absurd hends (Reading.Opened.not_endsOperand hreached hproper)
  | holds frames a => exact ⟨frames, a, hrun, hproper⟩
  | done a => exact absurd hreached id

/-- A function that makes the tokens unfit follows an operand. -/
theorem Viable.endsOperand_of_function (h : Viable before) (hend : ∀ t ∈ before, t.kind ≠ .endOfInput)
    (hk : token.kind = .function f) (hnot : ¬ Viable (before ++ [token])) : EndsOperand before := by
  obtain ⟨r, hrun, hreached, hproper⟩ := (viable_iff_exists_kept (h.regular hend)).mp h
  cases r with
  | wants frames =>
    refine absurd (viable_of_kept (r := .wants (.unary token :: frames)) ⟨?_, ?_⟩) hnot
    · exact Reading.Opened.function hk hreached
    · exact hproper.cons nofun
  | holds frames a =>
    obtain ⟨before', inner, rfl, -, -, ha⟩ := hreached
    exact ha.endsOperand.append before'
  | done a => exact absurd hreached id

/-- The tokens begin with a complete operand. -/
def BeginsOperand (tokens : List Token) : Prop :=
  ∃ inner rest a, tokens = inner ++ rest ∧ Spells 4 inner a

/-- The formula of tokens is that of the reading after some of them and of the tokens behind. -/
theorem ofTokens_eq_bind {r r' : Reading} (hrun : (Reading.wants []).run before = .ok r)
    (hstep : r.step token = .ok r') (after : List Token) : ofTokens (before ++ token :: after) =
      (r'.run after).bind (·.finish (after.getLast?.getD token).span.stop) := by
  have hlast : (before ++ token :: after).getLast? = some (after.getLast?.getD token) := by
    simp [List.getLast?_append, List.getLast?_cons]
  rw [ofTokens, hlast]
  simp only [Reading.run_append, hrun, Except.bind, Reading.run_cons, hstep]
  rfl

/-- **A function behind an operand is refused**: if an operand follows it, the function is blamed,
whatever follows then. If no operand follows, the error is found in what follows, as it would be behind a
power sign in place of the function. -/
theorem ofTokens_misplaced (hend : ∀ t ∈ before ++ token :: after, t.kind ≠ .endOfInput)
    (hviable : Viable before) (hnot : ¬ Viable (before ++ [token])) (hk : token.kind = .function f) :
    EndsOperand before ∧
      (BeginsOperand after → ofTokens (before ++ token :: after) = .error (.unexpected token)) ∧
      (¬ BeginsOperand after → ∃ cause, ofTokens (before ++ token :: after) = .error cause ∧
        ofTokens (before ++ { token with kind := .operator .pow } :: after) = .error cause) := by
  have hbefore : ∀ t ∈ before, t.kind ≠ .endOfInput := fun t ht => hend t (List.mem_append_left _ ht)
  have hafter : ∀ t ∈ after, t.kind ≠ .endOfInput := fun t ht => hend t (by simp [ht])
  have hends := hviable.endsOperand_of_function hbefore hk hnot
  obtain ⟨frames, a, hrun, hproper⟩ := hviable.exists_holds hbefore hends
  -- A function binds more tightly than all operators that are open, so it closes none of them.
  have hstep : (Reading.holds frames a).step token = .ok (.wants (.infixed a token :: frames)) := by
    rw [Reading.step_holds (Reading.reduce_eq (by rw [hk]; exact hproper.room_four) a), hk]
    rfl
  refine ⟨hends, ?_, ?_⟩
  · rintro ⟨inner, rest, b, rfl, hb⟩
    rw [ofTokens_eq_bind hrun hstep, Reading.run_append, hb.run_hold (Int.le_refl 4)]
    exact Reading.bind_finish_of_step (Reading.step_holds_function hk frames a b) rest _
  · intro hincomplete
    let power : Token := { token with kind := .operator .pow }
    obtain ⟨frames', a', hreduce, -⟩ := hproper.exists_reduce power.kind.precedence a
    have hpower : (Reading.holds frames a).step power = .ok (.wants (.infixed a' power :: frames')) := by
      rw [Reading.step_holds hreduce]
      rfl
    have hoffset : (after.getLast?.getD power).span = (after.getLast?.getD token).span := by
      cases after.getLast? <;> rfl
    rw [ofTokens_eq_bind hrun hstep, ofTokens_eq_bind hrun hpower, hoffset]
    exact Reading.exists_error_of_incomplete hafter
      (fun inner rest b heq hb => hincomplete ⟨inner, rest, b, heq, hb⟩)
      (Reading.awaited?_reduce hreduce).symm _

/-- The function is blamed although the bracket behind its operand is one too many. -/
theorem ofTokens_misplaced_bracket :
    let x : Token := ⟨.var, "x", ⟨0, 1⟩⟩
    let token : Token := ⟨.function .sin, "sin", ⟨2, 5⟩⟩
    let after : List Token := [⟨.constant .e, "e", ⟨6, 7⟩⟩, ⟨.closeBracket, ")", ⟨7, 8⟩⟩]
    Viable [x] ∧ ¬ Viable ([x] ++ [token]) ∧
      ofTokens ([x] ++ token :: after) = .error (.unexpected token) := by
  intro x token after
  have hviable : Viable [x] := ⟨[], .var, rfl⟩
  have hnot : ¬ Viable ([x] ++ [token]) :=
    not_viable_of_function (f := .sin) (by decide) (by decide) rfl
  have hafter : BeginsOperand after := ⟨[_], [_], _, rfl, .constant rfl⟩
  exact ⟨hviable, hnot, (ofTokens_misplaced (f := .sin) (by decide) hviable hnot rfl).2.1 hafter⟩

/-- The function is not blamed where the input ends behind it: then an operand is missing. -/
theorem ofTokens_function_last :
    let x : Token := ⟨.var, "x", ⟨0, 1⟩⟩
    let token : Token := ⟨.function .sin, "sin", ⟨2, 5⟩⟩
    Viable [x] ∧ ¬ Viable ([x] ++ [token]) ∧ ofText "x sin" = ofTokens ([x] ++ [token]) ∧
      ofTokens ([x] ++ [token]) = .error .missingOperand ∧
      ofTokens ([x] ++ [token]) ≠ .error (.unexpected token) := by
  intro x token
  have hnot : ¬ Viable ([x] ++ [token]) :=
    not_viable_of_function (f := .sin) (by decide) (by decide) rfl
  have hread : ofTokens ([x] ++ [token]) = .error .missingOperand := rfl
  exact ⟨⟨[], .var, rfl⟩, hnot, rfl, hread, by rw [hread]; nofun⟩

end Formula

end Fluxion
