import Fluxion.Binary64.Numeral

/-!
# JSON values

A JSON document as it is written. A number is kept as its literal. A string is kept as its pieces:
an escape may spell half of a surrogate pair, and only a string whose halves pair up has a text. An
object keeps all its members in order; where names repeat, the last one counts.
-/

namespace Fluxion

/-! ### Strings -/

/-- One piece of a JSON string. -/
inductive Json.Piece where
  /-- A character, written as itself or by an escape. -/
  | char (c : Char)
  /-- A code unit from `D800` to `DFFF`, half of a surrogate pair, written by an escape. -/
  | half (unit : Nat)
  deriving DecidableEq

/-- A JSON value. -/
inductive Json where
  /-- The null value. -/
  | null
  /-- A truth value. -/
  | bool (value : Bool)
  /-- A number, as it is written. -/
  | number (literal : List Char)
  /-- A string. -/
  | string (content : List Json.Piece)
  /-- An array. -/
  | array (items : List Json)
  /-- An object. -/
  | object (members : List (List Json.Piece × Json))

namespace Json

/-- Whether a code unit is the first half of a surrogate pair. -/
def isLeadingHalf (unit : Nat) : Bool := 0xD800 ≤ unit && unit < 0xDC00

/-- Whether a code unit is the second half of a surrogate pair. -/
def isTrailingHalf (unit : Nat) : Bool := 0xDC00 ≤ unit && unit < 0xE000

/-- The character that two halves spell. -/
def pairChar (leading trailing : Nat) : Char :=
  Char.ofNat (0x10000 + (leading - 0xD800) * 0x400 + (trailing - 0xDC00))

/-- The characters of a string, if all its halves pair up. -/
def charsOf? : List Piece → Option (List Char)
  | [] => some []
  | .char c :: rest => (charsOf? rest).map (c :: ·)
  | .half leading :: .half trailing :: rest =>
    if isLeadingHalf leading && isTrailingHalf trailing then
      (charsOf? rest).map (pairChar leading trailing :: ·)
    else
      none
  | .half _ :: _ => none

/-- The text of a string, if all its halves pair up. -/
def textOf? (content : List Piece) : Option String := (charsOf? content).map String.ofList

/-- The pieces of a text. -/
def contentOf (text : String) : List Piece := text.toList.map .char

theorem charsOf?_map_char (cs : List Char) : charsOf? (cs.map .char) = some cs := by
  induction cs with
  | nil => rfl
  | cons c cs ih =>
    rw [List.map_cons, charsOf?, ih]
    rfl

/-- The pieces of a text have that text. -/
@[simp] theorem textOf?_contentOf (text : String) : textOf? (contentOf text) = some text := by
  rw [textOf?, contentOf, charsOf?_map_char, Option.map_some, String.ofList_toList]

/-! ### Building values -/

/-- The string of a text. -/
def ofText (text : String) : Json := .string (contentOf text)

/-- The number of a natural number. -/
def ofNat (n : Nat) : Json := .number (Nat.toDigits 10 n)

/-- The number of an integer. -/
def ofInt : Int → Json
  | .ofNat n => ofNat n
  | .negSucc n => .number ('-' :: Nat.toDigits 10 (n + 1))

/-- The object with given names and values. -/
def ofMembers (members : List (String × Json)) : Json :=
  .object (members.map fun (name, value) => (contentOf name, value))

/-! ### Looking at values -/

/-- The text of a string. -/
def text? : Json → Option String
  | .string content => textOf? content
  | _ => none

/-- The items of an array. -/
def items? : Json → Option (List Json)
  | .array items => some items
  | _ => none

/-- The value of a number without sign, point and exponent that is below `2 ^ 64`. -/
def word? : Json → Option Nat
  | .number literal =>
    if literal.all Char.isDigit && Nat.ofDigitChars 10 literal 0 < 0x10000000000000000 then
      some (Nat.ofDigitChars 10 literal 0)
    else
      none
  | _ => none

/-- The members of an object under the texts of their names, if all names have one. -/
def members? : Json → Option (List (String × Json))
  | .object members => members.mapM fun (name, value) => (textOf? name).map (·, value)
  | _ => none

/-- The values that names stand for, each name once: a later member replaces an earlier one. -/
def lastOfEach (members : List (String × Json)) : List (String × Json) :=
  members.foldr (fun (name, value) rest =>
    if rest.any (·.1 = name) then rest else (name, value) :: rest) []

/-- The fields of an object: its members, each name once. -/
def fields? (value : Json) : Option (List (String × Json)) := value.members?.map lastOfEach

/-- The value of a field of an object. -/
def field? (value : Json) (name : String) : Option Json := do
  (← value.fields?).lookup name

/-- Whether a number lies within the range of doubles. -/
def inRange (literal : List Char) : Bool := (Binary64.ofList? literal).any Binary64.isFinite

mutual

/-- Whether a value nests arrays and objects to no more than some depth, all its strings and names
have a text, and all its numbers lie within the range of doubles. -/
def isSound (depth : Nat) : Json → Bool
  | .null | .bool _ => true
  | .number literal => inRange literal
  | .string content => (textOf? content).isSome
  | .array items => 0 < depth && areSound (depth - 1) items
  | .object members => 0 < depth && areSoundMembers (depth - 1) members

/-- Whether all items are sound. -/
def areSound (depth : Nat) : List Json → Bool
  | [] => true
  | item :: rest => item.isSound depth && areSound depth rest

/-- Whether all members are sound. -/
def areSoundMembers (depth : Nat) : List (List Piece × Json) → Bool
  | [] => true
  | (name, value) :: rest =>
    (textOf? name).isSome && value.isSound depth && areSoundMembers depth rest

end

end Json

end Fluxion
