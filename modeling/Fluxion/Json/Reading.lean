import Fluxion.Json.Lexeme

/-!
# Reading JSON

The lexemes of a text are read from left to right with a stack of the arrays and objects that are
still open, each with what it holds so far. There is no bound on how deeply they nest: a bound is
part of being sound, which is asked of a value afterwards.
-/

namespace Fluxion.Json

/-- An array or object that is not closed yet. What it holds is listed from the latest on. -/
inductive Frame where
  /-- An array. -/
  | array (items : List Json)
  /-- An object, and the name that the next value goes by. -/
  | object (members : List (List Piece × Json)) (name : List Piece)

/-- What may come next while a text is read. The frames are listed from the innermost on. -/
inductive Progress where
  /-- A value must come. -/
  | wantsValue (frames : List Frame)
  /-- The first item of an array must come, or its end. -/
  | wantsItem (frames : List Frame)
  /-- The first name of an object must come, or its end. -/
  | wantsMember (frames : List Frame)
  /-- A further name of an object must come. -/
  | wantsName (members : List (List Piece × Json)) (frames : List Frame)
  /-- The mark behind a name must come. -/
  | wantsColon (members : List (List Piece × Json)) (name : List Piece) (frames : List Frame)
  /-- A value is complete. -/
  | holds (value : Json) (frames : List Frame)

namespace Progress

/-- Reads a lexeme where a value must begin. -/
def beginValue (frames : List Frame) : Lexeme → Option Progress
  | .scalar value => some (.holds value frames)
  | .string content => some (.holds (.string content) frames)
  | .openArray => some (.wantsItem frames)
  | .openObject => some (.wantsMember frames)
  | .closeArray | .closeObject | .colon | .comma => none

/-- Reads a lexeme after a complete value. -/
def goOn (value : Json) : List Frame → Lexeme → Option Progress
  | .array items :: frames, .comma => some (.wantsValue (.array (value :: items) :: frames))
  | .array items :: frames, .closeArray => some (.holds (.array (value :: items).reverse) frames)
  | .object members name :: frames, .comma => some (.wantsName ((name, value) :: members) frames)
  | .object members name :: frames, .closeObject =>
    some (.holds (.object ((name, value) :: members).reverse) frames)
  | _, _ => none

/-- Reads one more lexeme. -/
def step : Progress → Lexeme → Option Progress
  | .wantsValue frames, lexeme => beginValue frames lexeme
  | .wantsItem frames, .closeArray => some (.holds (.array []) frames)
  | .wantsItem frames, lexeme => beginValue (.array [] :: frames) lexeme
  | .wantsMember frames, .closeObject => some (.holds (.object []) frames)
  | .wantsMember frames, .string name => some (.wantsColon [] name frames)
  | .wantsName members frames, .string name => some (.wantsColon members name frames)
  | .wantsColon members name frames, .colon => some (.wantsValue (.object members name :: frames))
  | .holds value frames, lexeme => goOn value frames lexeme
  | .wantsMember _, _ | .wantsName _ _, _ | .wantsColon _ _ _, _ => none

/-- The value that has been read, if nothing is open. -/
def result? : Progress → Option Json
  | .holds value [] => some value
  | _ => none

end Progress

/-- The value that a list of lexemes spells. -/
def ofLexemes? (lexemes : List Lexeme) : Option Json := do
  (← lexemes.foldlM Progress.step (.wantsValue [])).result?

/-- The value that a text spells, whether it is sound or not. -/
def read? (text : String) : Option Json := do
  ofLexemes? (← lexemes? text.toList)

/-- The value that a text spells, if it is sound and nests no more than 127 levels deep. -/
def readSound? (text : String) : Option Json := (read? text).filter (·.isSound 127)

end Fluxion.Json
