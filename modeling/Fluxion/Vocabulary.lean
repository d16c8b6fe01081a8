/-!
# The vocabulary of formulas

The constants, operators and named functions that formulas are built from, with the characters each
is written with. Reading and printing use the same spelling.
-/

namespace Fluxion

/-! ### Constants -/

/-- A named constant. -/
inductive Constant where
  /-- Euler's number, written `e`. -/
  | e
  /-- The ratio of a circle's circumference to its diameter, written `pi`. -/
  | pi
  deriving DecidableEq

namespace Constant

/-- The letters of a constant. -/
def letters : Constant → List Char
  | .e => ['e']
  | .pi => ['p', 'i']

/-- The written name of a constant. -/
def name (c : Constant) : String := String.ofList c.letters

end Constant

/-! ### Operators -/

/-- An operator between two operands. -/
inductive Operator where
  /-- The sum. -/
  | add
  /-- The difference. -/
  | sub
  /-- The product. -/
  | mul
  /-- The quotient. -/
  | div
  /-- The power: the base stands first, the exponent second. -/
  | pow
  deriving DecidableEq

namespace Operator

/-- The sign of an operator. -/
def sign : Operator → Char
  | .add => '+'
  | .sub => '-'
  | .mul => '*'
  | .div => '/'
  | .pow => '^'

/-- The written name of an operator. -/
def name (op : Operator) : String := String.ofList [op.sign]

/-- How tightly an operator binds its operands. -/
def precedence : Operator → Int
  | .add | .sub => 1
  | .mul | .div => 2
  | .pow => 3

theorem precedence_pos (op : Operator) : 0 < op.precedence := by
  cases op <;> decide

end Operator

/-! ### Functions -/

/-- A named function of one argument. -/
inductive NamedFunction where
  /-- The sine, written `sin`. -/
  | sin
  /-- The cosine, written `cos`. -/
  | cos
  /-- The tangent, written `tg`. -/
  | tan
  /-- The cotangent, written `ctg`. -/
  | cot
  /-- The natural logarithm, written `ln`. -/
  | ln
  /-- The logarithm to the base ten, written `lg`. -/
  | lg
  /-- The square root, written `sqrt`. -/
  | sqrt
  deriving DecidableEq

namespace NamedFunction

/-- All named functions. -/
def all : List NamedFunction := [.sin, .cos, .tan, .cot, .ln, .lg, .sqrt]

/-- The letters of a function. -/
def letters : NamedFunction → List Char
  | .sin => ['s', 'i', 'n']
  | .cos => ['c', 'o', 's']
  | .tan => ['t', 'g']
  | .cot => ['c', 't', 'g']
  | .ln => ['l', 'n']
  | .lg => ['l', 'g']
  | .sqrt => ['s', 'q', 'r', 't']

/-- The written name of a function. -/
def name (f : NamedFunction) : String := String.ofList f.letters

end NamedFunction

end Fluxion
