import Fluxion.Json.Reading
import Fluxion.Json.Writing
import Fluxion.Token.Basic

/-!
# Tokens as JSON

The form in which tokens travel. A kind is a name, and the kind of a function an object that holds
the function's name; a span is an object of two offsets below `2 ^ 64`, and a token an object of
kind, text and span. Reading also takes the parts of a span or a token in an array, and a name that
stands alone as an object with a null value.
-/

namespace Fluxion

/-! ### Names -/

/-- The name of a function on its way: the two tangents are called by their international names. -/
def NamedFunction.tag : NamedFunction → String
  | .sin => "sin"
  | .cos => "cos"
  | .tan => "tan"
  | .cot => "cotan"
  | .ln => "ln"
  | .lg => "lg"
  | .sqrt => "sqrt"

/-- The function of a name. -/
def NamedFunction.ofTag? (tag : String) : Option NamedFunction :=
  NamedFunction.all.find? (·.tag = tag)

/-- The name in a value: a string, or the one name of an object whose value is null. -/
def Json.tag? (value : Json) : Option String :=
  match value.text?, value.fields? with
  | some name, _ => some name
  | none, some [(name, .null)] => some name
  | _, _ => none

/-- The kinds that are called by a name alone. -/
def Token.Kind.tags : List (String × Token.Kind) :=
  [("Number", .numeral), ("Variable", .var), ("ConstantE", .constant .e),
    ("ConstantPi", .constant .pi), ("Plus", .operator .add), ("Minus", .operator .sub),
    ("Multiply", .operator .mul), ("Divide", .operator .div), ("Power", .operator .pow),
    ("OpenParen", .openBracket), ("CloseParen", .closeBracket), ("End", .endOfInput)]

/-! ### Kinds -/

/-- A kind as JSON. -/
def Token.Kind.toJson : Token.Kind → Json
  | .numeral => .ofText "Number"
  | .var => .ofText "Variable"
  | .constant .e => .ofText "ConstantE"
  | .constant .pi => .ofText "ConstantPi"
  | .operator .add => .ofText "Plus"
  | .operator .sub => .ofText "Minus"
  | .operator .mul => .ofText "Multiply"
  | .operator .div => .ofText "Divide"
  | .operator .pow => .ofText "Power"
  | .openBracket => .ofText "OpenParen"
  | .closeBracket => .ofText "CloseParen"
  | .function f => .ofMembers [("Function", .ofText f.tag)]
  | .endOfInput => .ofText "End"

/-- The kind that a value stands for. -/
def Token.Kind.ofJson? (value : Json) : Option Token.Kind :=
  match value.fields? with
  | some [("Function", f)] => do
    return .function (← NamedFunction.ofTag? (← f.tag?))
  | _ => do
    Token.Kind.tags.lookup (← value.tag?)

/-! ### Spans -/

/-- A span as JSON. -/
def Span.toJson (span : Span) : Json :=
  .ofMembers [("start", .ofNat span.start), ("end", .ofNat span.stop)]

/-- The values of the named fields of an object, or of as many items of an array. -/
def Json.record? (names : List String) (value : Json) : Option (List Json) :=
  match value.items? with
  | some items => if items.length = names.length then some items else none
  | none => names.mapM value.field?

/-- The span that a value stands for. -/
def Span.ofJson? (value : Json) : Option Span := do
  match ← value.record? ["start", "end"] with
  | [start, stop] => return ⟨← start.word?, ← stop.word?⟩
  | _ => none

/-! ### Tokens -/

namespace Token

/-- A token as JSON. -/
def toJson (token : Token) : Json :=
  .ofMembers [("kind", token.kind.toJson), ("text", .ofText token.text), ("span", token.span.toJson)]

/-- The token that a value stands for. -/
def ofJson? (value : Json) : Option Token := do
  match ← value.record? ["kind", "text", "span"] with
  | [kind, text, span] => return ⟨← Kind.ofJson? kind, ← text.text?, ← Span.ofJson? span⟩
  | _ => none

/-- The tokens that an array of values stands for. -/
def listOfJson? (value : Json) : Option (List Token) := do
  (← value.items?).mapM ofJson?

/-- Tokens as JSON: an array of them. -/
def listToJson (tokens : List Token) : Json := .array (tokens.map toJson)

/-- The text in which tokens travel. -/
def listToJsonText (tokens : List Token) : String := (listToJson tokens).toText

/-- The tokens that travel in a text. -/
def listOfJsonText? (text : String) : Option (List Token) := do
  listOfJson? (← Json.readSound? text)

end Token

end Fluxion
