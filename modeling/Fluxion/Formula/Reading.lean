import Fluxion.Formula.Basic
import Fluxion.Token.Scan

/-!
# Reading formulas

A list of tokens is read from left to right with a stack of what is still open: brackets, operators
with their left operand, and minus signs and functions that wait for their argument. The reader
either wants an operand or holds one.

* A minus or a function takes the one operand that follows, so it binds more tightly than any
  operator: `sin x ^ 2` is `(sin x) ^ 2`, and `-x ^ 2` is `(-x) ^ 2`.
* A token after an operand first closes the operators on the stack that bind at least as tightly as
  it does. So all operators associate to the left, powers too.
* A function after an operand is taken for an operator of the tightest kind, and refused as soon as
  its right operand has been read.
-/

namespace Fluxion

/-- What is still open while a formula is read. -/
inductive Frame where
  /-- A bracket that is not closed yet. -/
  | bracket
  /-- A minus or a function that waits for its argument. -/
  | unary (token : Token)
  /-- An operator that waits for its right operand. -/
  | infixed (left : Formula) (token : Token)
  deriving DecidableEq

/-- How far the reading of a formula has come. The frames are listed from the innermost on. -/
inductive Reading where
  /-- An operand must come next. -/
  | wants (frames : List Frame)
  /-- An operand has been read. -/
  | holds (frames : List Frame) (operand : Formula)
  /-- The input has ended after a formula. -/
  | done (result : Formula)
  deriving DecidableEq

namespace Reading

/-! ### Operands -/

/-- What a minus or a function makes of its argument. -/
def applyUnary (token : Token) (argument : Formula) : Formula :=
  match token.kind with
  | .function f => .apply f argument
  | _ => -argument

/-- An operand is read: the minus signs and functions right before it take it. -/
def hold (operand : Formula) : List Frame → Reading
  | .unary token :: frames => hold (applyUnary token operand) frames
  | frames => .holds frames operand

/-- The name of the innermost minus or function whose argument is being read. -/
def awaited? : List Frame → Option String
  | [] => none
  | .unary token :: _ => some token.text
  | _ :: frames => awaited? frames

/-- The input ends where an operand is wanted. -/
def missing (frames : List Frame) : ReadError :=
  match awaited? frames with
  | some name => .missingArgument name
  | none => .missingOperand

/-- Reads a token where an operand is wanted. -/
def takeOperand (frames : List Frame) (token : Token) : Except ReadError Reading :=
  match token.kind with
  | .numeral =>
    match Binary64.ofText? token.text with
    | some value => .ok (hold (.number value) frames)
    | none => .error (.scan (.badNumeral token.text token.span))
  | .var => .ok (hold .var frames)
  | .constant c => .ok (hold (.constant c) frames)
  | .openBracket => .ok (.wants (.bracket :: frames))
  | .operator .sub | .function _ => .ok (.wants (.unary token :: frames))
  | .endOfInput => .error (missing frames)
  | .operator _ | .closeBracket => .error (.unexpected token)

/-! ### Operators -/

/-- Puts an operator between its operands. -/
def combine (left : Formula) (token : Token) (right : Formula) : Except ReadError Formula :=
  match token.kind with
  | .operator op => .ok (.binary op left right)
  | _ => .error (.unexpected token)

/-- Closes the operators on the stack that bind at least as tightly as a precedence. -/
def reduce (precedence : Int) : List Frame → Formula → Except ReadError (List Frame × Formula)
  | .infixed left token :: frames, right =>
    if precedence ≤ token.kind.precedence then do
      reduce precedence frames (← combine left token right)
    else
      .ok (.infixed left token :: frames, right)
  | frames, operand => .ok (frames, operand)

/-- Reads a token that cannot join operands, after all operators have been closed: it closes the
innermost bracket, or ends the input if there is none. -/
def close (token : Token) : List Frame → Formula → Except ReadError Reading
  | .bracket :: frames, operand =>
    if token.kind = .closeBracket then .ok (hold operand frames)
    else .error (.unclosedBracket token.span.start)
  | _, operand => if token.isEnd then .ok (.done operand) else .error (.unexpected token)

/-- Reads a token after an operand. -/
def takeOperator (frames : List Frame) (operand : Formula) (token : Token) :
    Except ReadError Reading := do
  let (frames, operand) ← reduce token.kind.precedence frames operand
  if 0 < token.kind.precedence then
    return .wants (.infixed operand token :: frames)
  else
    close token frames operand

/-! ### Lists of tokens -/

/-- Reads one more token; what follows the end of the input is not looked at. -/
def step : Reading → Token → Except ReadError Reading
  | .wants frames, token => takeOperand frames token
  | .holds frames operand, token => takeOperator frames operand token
  | .done result, _ => .ok (.done result)

/-- The reading after a list of tokens. -/
def run (start : Reading) (tokens : List Token) : Except ReadError Reading := tokens.foldlM step start

theorem run_cons (start : Reading) (token : Token) (tokens : List Token) :
    start.run (token :: tokens) = (start.step token).bind (run · tokens) := rfl

theorem run_append (start : Reading) (tokens more : List Token) :
    start.run (tokens ++ more) = (start.run tokens).bind (run · more) := by
  simp only [run, List.foldlM_append]
  rfl

/-- After the end of the input, the rest is not looked at. -/
theorem run_done (result : Formula) (tokens : List Token) :
    (done result).run tokens = .ok (.done result) := by
  induction tokens with
  | nil => rfl
  | cons token tokens ih => exact ih

/-- The formula that has been read when the input ends at an offset. -/
def finish (reading : Reading) (offset : Nat) : Except ReadError Formula := do
  match ← reading.step (.endAt offset) with
  | .done result => return result
  | .wants frames | .holds frames _ => throw (missing frames)

end Reading

namespace Formula

/-- The formula that a list of tokens spells. The input ends behind the last token. -/
def ofTokens (tokens : List Token) : Except ReadError Formula :=
  match tokens.getLast? with
  | none => .error .emptyInput
  | some last => do
    let reading ← (Reading.wants []).run tokens
    reading.finish last.span.stop

/-- The formula that a text spells. -/
def ofText (text : String) : Except ReadError Formula :=
  match Token.scan text with
  | .ok tokens => ofTokens tokens
  | .error cause => .error (.scan cause)

end Formula

end Fluxion
