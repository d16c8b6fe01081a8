import Fluxion.Formula.Derivative
import Fluxion.Formula.Printed
import Fluxion.Formula.Reading

/-!
# A stack of formulas

Formulas can be built step by step on a stack, by commands that are written as words. A command
pushes a formula, joins the two on top, or replaces, copies or drops the top. A command that fails
leaves the stack as it was.

A word may have an argument, behind its first colon. Whether the stack is empty is asked before an
argument is looked at, except where the command needs nothing of the stack but its length.
-/

namespace Fluxion

/-- Formulas, the top first. -/
abbrev Stack := List Formula

/-! ### Commands -/

/-- What can be done with the top of a stack. -/
inductive TopAction where
  /-- Negate it. -/
  | negate
  /-- Put it into a function. -/
  | apply (f : NamedFunction)
  /-- Differentiate it so many times. -/
  | differentiate (order : Nat)
  /-- Take one of its children instead. -/
  | child (index : Nat)
  /-- Print it and read it again. -/
  | reread
  /-- Push a copy of it. -/
  | duplicate
  /-- Drop it. -/
  | drop
  /-- No action is meant by the word. -/
  | unknown
  deriving DecidableEq

/-- A command. -/
inductive Command where
  /-- Push a formula. -/
  | push (formula : Formula)
  /-- Push the formula that a text spells. -/
  | read (text : String)
  /-- Push a copy of an entry, counted from the bottom. -/
  | pick (index : Nat)
  /-- Join the two formulas on top. -/
  | join (op : Operator)
  /-- Exchange the two formulas on top. -/
  | swap
  /-- Compare the two formulas on top. -/
  | compare
  /-- Do something with the top. -/
  | top (action : TopAction)
  /-- A push or a pick without the number it needs. -/
  | malformed
  deriving DecidableEq

namespace Command

/-- A whole number below `2 ^ 64`, with or without a plus. -/
def index? (text : List Char) : Option Nat :=
  let digits := match text with
    | '+' :: rest => rest
    | _ => text
  let value := Nat.ofDigitChars 10 digits 0
  if digits ≠ [] ∧ digits.all Char.isDigit ∧ value < 0x10000000000000000 then some value else none

/-- The commands that are one word, without an argument. -/
def words : List (String × Command) :=
  [("x", .push .var), ("e", .push (.constant .e)), ("pi", .push (.constant .pi)),
    ("zero", .push 0), ("one", .push 1), ("swap", .swap), ("eq", .compare),
    ("neg", .top .negate), ("d", .top (.differentiate 1)), ("reparse", .top .reread),
    ("dup", .top .duplicate), ("drop", .top .drop)] ++
    [Operator.add, .sub, .mul, .div, .pow].map (fun op => (op.name, Command.join op)) ++
    NamedFunction.all.map (fun f => (f.name, Command.top (.apply f)))

/-- The command with an argument that a word means. -/
def withArgument (word : String) (argument : List Char) : Command :=
  match word with
  | "n" => (Binary64.ofList? argument).elim .malformed (.push <| .number ·)
  | "parse" => .read (String.ofList argument)
  | "pick" => (index? argument).elim .malformed .pick
  | "nth" => .top ((index? argument).elim .unknown .differentiate)
  | "child" => .top ((index? argument).elim .unknown .child)
  | _ => .top .unknown

/-- The command that a text means. -/
def ofText (text : String) : Command :=
  let word := String.ofList (text.toList.takeWhile (· ≠ ':'))
  let argument := (text.toList.dropWhile (· ≠ ':')).drop 1
  (words.lookup word).getD (withArgument word argument)

end Command

/-! ### Running commands -/

/-- Why a command fails. -/
inductive StackError where
  /-- The stack holds too few formulas. -/
  | underflow
  /-- There is no such entry or child. -/
  | noSuchEntry
  /-- The text means no command. -/
  | notACommand
  /-- A text is no formula. -/
  | read (cause : ReadError)
  deriving DecidableEq

/-- What a command has done. -/
inductive Outcome where
  /-- The stack has changed to this one. -/
  | stack (stack : Stack)
  /-- The two formulas on top agree, or do not. -/
  | verdict (equal : Bool)
  deriving DecidableEq

/-- Pushes what was read from a text. -/
def Stack.pushText (stack : Stack) (text : String) : Except StackError Stack :=
  match Formula.ofText text with
  | .ok formula => .ok (formula :: stack)
  | .error cause => .error (.read cause)

/-- Does something with the top of a stack, given the top and the rest. -/
def TopAction.run (action : TopAction) (top : Formula) (rest : Stack) : Except StackError Stack :=
  match action with
  | .negate => .ok (-top :: rest)
  | .apply f => .ok (.apply f top :: rest)
  | .differentiate order => .ok (top.nthDerivative order :: rest)
  | .child index =>
    match top.children[index]? with
    | some operand => .ok (operand :: rest)
    | none => .error .noSuchEntry
  | .reread => rest.pushText top.text
  | .duplicate => .ok (top :: top :: rest)
  | .drop => .ok rest
  | .unknown => .error .notACommand

/-- Runs a command. -/
def Command.run (command : Command) (stack : Stack) : Except StackError Outcome :=
  match command, stack with
  | .push formula, _ => .ok (.stack (formula :: stack))
  | .read text, _ => (stack.pushText text).map .stack
  | .pick index, _ =>
    match stack.reverse[index]? with
    | some formula => .ok (.stack (formula :: stack))
    | none => .error .noSuchEntry
  | .malformed, _ => .error .notACommand
  | .join op, b :: a :: rest => .ok (.stack (.binary op a b :: rest))
  | .swap, b :: a :: rest => .ok (.stack (a :: b :: rest))
  | .compare, b :: a :: _ => .ok (.verdict (a.agrees b))
  | .top action, a :: rest => (action.run a rest).map .stack
  | _, _ => .error .underflow

/-- The stack after a command: unchanged if the command fails or only compares. -/
def Stack.after (stack : Stack) : Except StackError Outcome → Stack
  | .ok (.stack next) => next
  | _ => stack

end Fluxion
