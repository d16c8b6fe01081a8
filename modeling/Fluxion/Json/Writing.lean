import Fluxion.Json.Basic

/-!
# Writing JSON

Values are written without blanks. In a string, the quote, the backslash and the control characters
below `U+0020` are escaped, by two characters where there is such an escape and by their code
otherwise; all other characters stand for themselves.
-/

namespace Fluxion.Json

/-- A code unit as four hexadecimal digits. -/
def hexUnit (unit : Nat) : List Char :=
  [unit / 0x1000, unit / 0x100 % 16, unit / 0x10 % 16, unit % 16].map Nat.digitChar

/-- A character as it is written in a string. -/
def escape (c : Char) : List Char :=
  if c = '"' then ['\\', '"']
  else if c = '\\' then ['\\', '\\']
  else if c = '\x08' then ['\\', 'b']
  else if c = '\x0c' then ['\\', 'f']
  else if c = '\n' then ['\\', 'n']
  else if c = '\r' then ['\\', 'r']
  else if c = '\t' then ['\\', 't']
  else if c.toNat < 0x20 then '\\' :: 'u' :: hexUnit c.toNat
  else [c]

/-- A piece of a string as it is written. -/
def Piece.write : Piece → List Char
  | .char c => escape c
  | .half unit => '\\' :: 'u' :: hexUnit unit

/-- A string as it is written. -/
def writeString (content : List Piece) : List Char :=
  '"' :: content.flatMap Piece.write ++ ['"']

mutual

/-- The characters of a value. -/
def write : Json → List Char
  | .null => ['n', 'u', 'l', 'l']
  | .bool true => ['t', 'r', 'u', 'e']
  | .bool false => ['f', 'a', 'l', 's', 'e']
  | .number literal => literal
  | .string content => writeString content
  | .array [] => ['[', ']']
  | .array (item :: rest) => '[' :: item.write ++ writeItems rest
  | .object [] => ['\x7b', '\x7d']
  | .object ((name, value) :: rest) =>
    '\x7b' :: writeString name ++ ':' :: value.write ++ writeMembers rest

/-- The further items of an array, and its end. -/
def writeItems : List Json → List Char
  | [] => [']']
  | item :: rest => ',' :: item.write ++ writeItems rest

/-- The further members of an object, and its end. -/
def writeMembers : List (List Piece × Json) → List Char
  | [] => ['\x7d']
  | (name, value) :: rest => ',' :: writeString name ++ ':' :: value.write ++ writeMembers rest

end

/-- The text of a value. -/
def toText (value : Json) : String := String.ofList value.write

end Fluxion.Json
