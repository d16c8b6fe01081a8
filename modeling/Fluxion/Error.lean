import Fluxion.Token.Basic

/-!
# Errors

What can go wrong, by cause: while a text is split into tokens, while the tokens are read as a
formula, and when more derivatives are asked for than the limit allows. Each cause has one wording.
A computation that breaks off has no result at all, not even one of these errors (`Panic`).
-/

namespace Fluxion

/-- Why a text has no tokens. -/
inductive ScanError where
  /-- A digit follows a word that no keyword ends. -/
  | digitInWord (text : String) (span : Span)
  /-- A word is no keyword. -/
  | unknownWord (text : String) (span : Span)
  /-- A run of digits and points, with whatever stood unread before it, is no finite number. -/
  | badNumeral (text : String) (span : Span)
  deriving DecidableEq

/-- The wording of a scan error. -/
def ScanError.message : ScanError → String
  | .digitInWord text span => "Syntax error: '" ++ text ++ "' at " ++ span.text
  | .unknownWord text span => "Unrecognized input '" ++ text ++ "' at " ++ span.text
  | .badNumeral text span => "Invalid number '" ++ text ++ "' at " ++ span.text

/-- Why a text or a list of tokens is no formula. -/
inductive ReadError where
  /-- The text has no tokens. -/
  | scan (cause : ScanError)
  /-- There are no tokens at all. -/
  | emptyInput
  /-- A bracket is not closed where the next token, at the given offset, would have to close it. -/
  | unclosedBracket (offset : Nat)
  /-- The input ends where an operand is wanted. -/
  | missingOperand
  /-- The input ends within the argument of the minus or function written so. -/
  | missingArgument (name : String)
  /-- A token stands where it cannot stand. -/
  | unexpected (token : Token)
  deriving DecidableEq

/-- The wording of a read error. -/
def ReadError.message : ReadError → String
  | .scan cause => cause.message
  | .emptyInput => "Function is empty or not allowed"
  | .unclosedBracket offset => "Expected closing bracket at " ++ toString offset
  | .missingOperand => "Second operand is missing"
  | .missingArgument name => "Missing argument for " ++ name ++ " function"
  | .unexpected token => "Unexpected " ++ token.describe

/-- Why a formula was not differentiated. -/
inductive DeriveError where
  /-- The text is no formula. -/
  | read (cause : ReadError)
  /-- More derivatives are asked for than the limit allows. -/
  | orderTooHigh (order limit : Nat)
  deriving DecidableEq

/-- The wording of a derivation error. -/
def DeriveError.message : DeriveError → String
  | .read cause => cause.message
  | .orderTooHigh order limit =>
    "Derivative order " ++ toString order ++ " exceeds the limit of " ++ toString limit

/-- Why a computation breaks off. -/
inductive Panic where
  /-- A list is to have room for more entries than any list can have. -/
  | capacityOverflow
  deriving DecidableEq

/-! ### Results -/

/-- What comes first in a computation that succeeds has succeeded. -/
theorem exists_ok_of_bind {ε α β : Type} {x : Except ε α} {f : α → Except ε β} {b : β}
    (h : x.bind f = .ok b) : ∃ a, x = .ok a ∧ f a = .ok b := by
  cases x with
  | error cause => cases h
  | ok a => exact ⟨a, rfl, h⟩

/-- A computation that fails has failed in what comes first or in what comes then. -/
theorem error_of_bind {ε α β : Type} {x : Except ε α} {f : α → Except ε β} {cause : ε}
    (h : x.bind f = .error cause) : x = .error cause ∨ ∃ a, x = .ok a ∧ f a = .error cause := by
  cases x with
  | error cause' =>
    cases h
    exact .inl rfl
  | ok a => exact .inr ⟨a, rfl, h⟩

theorem error_of_map {ε α β : Type} {x : Except ε α} {f : α → β} {cause : ε}
    (h : x.map f = .error cause) : x = .error cause := by
  cases x with
  | error cause' =>
    cases h
    rfl
  | ok a => cases h

end Fluxion
