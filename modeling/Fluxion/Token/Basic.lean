import Fluxion.Span
import Fluxion.Vocabulary

/-!
# Tokens

A text is read as a list of tokens. A token knows its kind, its text and where it stood; reading a
formula looks at the kinds, and at the text of a numeral alone.
-/

namespace Fluxion

/-- What a token stands for. -/
inductive Token.Kind where
  /-- A numeral. -/
  | numeral
  /-- The variable `x`. -/
  | var
  /-- A named constant. -/
  | constant (c : Constant)
  /-- An operator; a minus may also stand in front of a single operand. -/
  | operator (op : Operator)
  /-- An opening bracket of any shape. -/
  | openBracket
  /-- A closing bracket of any shape. -/
  | closeBracket
  /-- A named function. -/
  | function (f : NamedFunction)
  /-- The end of the input, which no scanned token has. -/
  | endOfInput
  deriving DecidableEq

/-- A piece of text with a meaning. -/
structure Token where
  /-- What the token stands for. -/
  kind : Token.Kind
  /-- The characters it was read from. -/
  text : String
  /-- Where they stood. -/
  span : Span
  deriving DecidableEq

namespace Token

namespace Kind

/-- How tightly a token binds when it follows a complete operand. What cannot join two operands is
at zero or below. -/
def precedence : Kind → Int
  | .endOfInput => -1
  | .operator op => op.precedence
  | .function _ => 4
  | .numeral | .var | .constant _ | .openBracket | .closeBracket => 0

/-- How a kind is shown. -/
def text : Kind → String
  | .numeral => "number"
  | .var => "x"
  | .constant c => c.name
  | .operator op => op.name
  | .openBracket => "("
  | .closeBracket => ")"
  | .function f => f.name
  | .endOfInput => "end of input"

end Kind

/-- The token that ends the input at an offset. -/
def endAt (offset : Nat) : Token := ⟨.endOfInput, "", .emptyAt offset⟩

/-- Whether a token ends the input. -/
def isEnd (token : Token) : Bool := token.kind = .endOfInput

/-- How a token is shown: its text in quotes and where it stood, or that the input ended. -/
def describe (token : Token) : String :=
  if token.isEnd then "end of input" else "'" ++ token.text ++ "' at " ++ token.span.text

end Token

end Fluxion
