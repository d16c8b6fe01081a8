import Fluxion.Binary64.Fixed
import Fluxion.Formula.Basic

/-!
# Printing formulas

A formula is printed as a list of symbols, which are then spelled out, and has a rank that tells an
enclosing formula whether it needs brackets. Both are made together from those of the operands
(`Printed`), so the rank of a node depends on how its operands print and on nothing else.

Printing simplifies where an operand prints as a plain zero or one: `0 + a` prints as `a`, `0 * a`
as `0`, `a ^ 1` as `a`, and so on. The printed ranks do not always follow: a sum with a zero ranks
as an atom whatever its other operand is, so that `(0 + (x + 1)) * x` prints as `x + 1 * x`, and a
negation never brackets its operand.
-/

namespace Fluxion

/-! ### Symbols -/

/-- One symbol of a printed formula. -/
inductive Symbol where
  /-- The characters of a number. -/
  | numeral (text : List Char)
  /-- The variable `x`. -/
  | var
  /-- A named constant. -/
  | constant (c : Constant)
  /-- A named function. -/
  | function (f : NamedFunction)
  /-- The minus of a negation, written next to its operand. -/
  | minus
  /-- An operator between two operands, written with spaces around it. -/
  | operator (op : Operator)
  /-- An opening bracket. -/
  | openBracket
  /-- A closing bracket. -/
  | closeBracket
  deriving DecidableEq

namespace Symbol

/-- The characters of a symbol. -/
def spelling : Symbol → List Char
  | .numeral text => text
  | .var => ['x']
  | .constant c => c.letters
  | .function f => f.letters
  | .minus => ['-']
  | .operator op => [' ', op.sign, ' ']
  | .openBracket => ['(']
  | .closeBracket => [')']

end Symbol

/-! ### Ranks -/

/-- The ranks of printed formulas: the atoms, which need no brackets anywhere, and then from the
loosest to the tightest. -/
inductive Rank where
  /-- A number, the variable or a constant; or what is taken for one. -/
  | atom
  /-- A difference whose left operand prints as zero. -/
  | negation
  /-- A sum or a difference. -/
  | additive
  /-- A product or a quotient. -/
  | multiplicative
  /-- A power. -/
  | power
  /-- A function of an argument. -/
  | function
  deriving DecidableEq

/-- The position of a rank among the ranks. -/
def Rank.level : Rank → Nat
  | .atom => 0
  | .negation => 1
  | .additive => 2
  | .multiplicative => 3
  | .power => 4
  | .function => 5

/-! ### Printed formulas -/

/-- How a formula prints. -/
structure Printed where
  /-- The symbols, from left to right. -/
  symbols : List Symbol
  /-- The rank that decides whether an enclosing formula writes brackets. -/
  rank : Rank
  deriving DecidableEq

namespace Printed

/-- What prints as a number. -/
def numeral (text : List Char) : Printed := ⟨[.numeral text], .atom⟩

/-- What prints as zero. -/
def zero : Printed := numeral ['0']

/-- What prints as one. -/
def one : Printed := numeral ['1']

/-- Whether something prints as zero. -/
def isZero (a : Printed) : Bool := a.symbols = zero.symbols

/-- Whether something prints as one. -/
def isOne (a : Printed) : Bool := a.symbols = one.symbols

theorem isZero_iff (a : Printed) : a.isZero = true ↔ a.symbols = [.numeral ['0']] :=
  decide_eq_true_iff

theorem isOne_iff (a : Printed) : a.isOne = true ↔ a.symbols = [.numeral ['1']] :=
  decide_eq_true_iff

/-- Nothing prints both as zero and as one. -/
theorem isOne_of_isZero {a : Printed} (h : a.isZero = true) : a.isOne = false := by
  rw [isZero_iff] at h
  rw [← Bool.not_eq_true, isOne_iff, h]
  decide

/-- The symbols, in brackets if the rank lies strictly between two ranks. -/
def between (low high : Rank) (a : Printed) : List Symbol :=
  if low.level < a.rank.level ∧ a.rank.level < high.level then
    .openBracket :: a.symbols ++ [.closeBracket]
  else
    a.symbols

/-- Two printed operands with an operator between them. -/
def joined (op : Operator) (left right : List Symbol) (rank : Rank) : Printed :=
  ⟨left ++ .operator op :: right, rank⟩

/-- A sum leaves out its zeros and never brackets an operand. -/
def add (a b : Printed) : Printed :=
  if a.isZero then ⟨b.symbols, .atom⟩
  else if b.isZero then ⟨a.symbols, .atom⟩
  else joined .add a.symbols b.symbols .additive

/-- A difference from zero is written as a bare minus; other differences leave out a zero on the
right, and bracket any operator there. -/
def sub (a b : Printed) : Printed :=
  if a.isZero then
    ⟨if b.isZero then b.symbols else .minus :: b.symbols, .negation⟩
  else if b.isZero then ⟨a.symbols, .additive⟩
  else joined .sub a.symbols (b.between .atom .function) .additive

/-- A product with zero is zero, and leaves out its ones. -/
def mul (a b : Printed) : Printed :=
  if a.isZero || b.isZero then zero
  else if a.isOne then b
  else if b.isOne then a
  else joined .mul (a.between .atom .multiplicative) (b.between .atom .power) .multiplicative

/-- A quotient of zero is zero, and leaves out a one on the right; a negation on the left stays
bare. -/
def div (a b : Printed) : Printed :=
  if a.isZero || b.isOne then ⟨a.symbols, .multiplicative⟩
  else joined .div (a.between .negation .multiplicative) (b.between .atom .power) .multiplicative

/-- A power leaves out an exponent of one; with an exponent of zero it is one, and otherwise with a
base of zero it is zero. -/
def pow (base exponent : Printed) : Printed :=
  if exponent.isOne then ⟨base.symbols, .power⟩
  else if exponent.isZero then ⟨one.symbols, .power⟩
  else if base.isZero then ⟨base.symbols, .power⟩
  else joined .pow (base.between .atom .power) (exponent.between .atom .function) .power

/-- An operator between two printed operands. -/
def binary : Operator → Printed → Printed → Printed
  | .add => add
  | .sub => sub
  | .mul => mul
  | .div => div
  | .pow => pow

/-- The number that a function of a printed argument is written as, if it is so simple. -/
def knownValue? (f : NamedFunction) (a : Printed) : Option Printed :=
  match f, a.symbols with
  | .ln, [.constant .e] => some one
  | .ln, [.numeral ['1']] => some zero
  | .lg, [.numeral ['1', '0']] => some one
  | .lg, [.numeral ['1']] => some zero
  | .sqrt, [.numeral ['0']] => some zero
  | _, _ => none

/-- A function of a printed argument: its name and the argument in brackets, unless the value is
known. -/
def apply (f : NamedFunction) (a : Printed) : Printed :=
  match knownValue? f a with
  | some value => ⟨value.symbols, .function⟩
  | none => ⟨.function f :: .openBracket :: a.symbols ++ [.closeBracket], .function⟩

/-- The characters of what is printed. -/
def toList (a : Printed) : List Char := a.symbols.flatMap Symbol.spelling

end Printed

/-! ### Formulas -/

namespace Formula

/-- How a formula prints. -/
def printed : Formula → Printed
  | .number value => .numeral value.toList
  | .var => ⟨[.var], .atom⟩
  | .constant c => ⟨[.constant c], .atom⟩
  | .binary op a b => .binary op a.printed b.printed
  | .apply f a => .apply f a.printed

/-- The printing rank of a formula. -/
def rank (a : Formula) : Rank := a.printed.rank

/-- How a formula prints, and the ranks of its subformulas in postorder, found in one pass. -/
def survey : Formula → Printed × List Rank
  | .binary op a b =>
    let (left, ranks) := a.survey
    let (right, more) := b.survey
    let joined := Printed.binary op left right
    (joined, ranks ++ more ++ [joined.rank])
  | .apply f a =>
    let (argument, ranks) := a.survey
    let applied := Printed.apply f argument
    (applied, ranks ++ [applied.rank])
  | a => (a.printed, [a.rank])

theorem survey_eq (a : Formula) : a.survey = (a.printed, a.postorder.map rank) := by
  induction a with
  | number | var | constant => rfl
  | binary op a b iha ihb => simp [survey, iha, ihb, postorder, printed, rank]
  | apply f a ih => simp [survey, ih, postorder, printed, rank]

/-- The ranks of all subformulas, in postorder. -/
def ranks (a : Formula) : List Rank := a.survey.2

theorem ranks_eq (a : Formula) : a.ranks = a.postorder.map rank := by
  rw [ranks, survey_eq]

/-- The text of a formula. -/
def text (a : Formula) : String := String.ofList a.printed.toList

theorem isZero_zero : (0 : Formula).printed.isZero = true := by
  decide +kernel

theorem isOne_one : (1 : Formula).printed.isOne = true := by
  decide +kernel

/-- Whether two formulas agree: in shape, in the values of numbers, and in the rank of every node. -/
def agrees : Formula → Formula → Bool
  | .number v, .number w => v.sameValue w
  | .var, .var => true
  | .constant c, .constant d => c = d
  | .binary op a b, .binary op' a' b' =>
    op = op' && a.agrees a' && b.agrees b' &&
      (Formula.binary op a b).rank = (Formula.binary op' a' b').rank
  | .apply f a, .apply g b => f = g && a.agrees b
  | _, _ => false

/-- Formulas that agree have the same rank. -/
theorem rank_eq_of_agrees {a b : Formula} (h : a.agrees b = true) : a.rank = b.rank := by
  cases a <;> cases b <;> simp only [agrees, Bool.false_eq_true] at h
  · rfl
  · rfl
  · rfl
  · simp only [Bool.and_eq_true, decide_eq_true_eq] at h
    exact h.2
  · simp only [rank, printed, Printed.apply]
    split <;> split <;> rfl

end Formula

end Fluxion
