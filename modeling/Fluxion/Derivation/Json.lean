import Fluxion.Derivation
import Fluxion.Json.Reading
import Fluxion.Json.Writing

/-!
# Derivations as JSON

A derivation is kept as an object of its three texts. When it is read again the fields may come in
any order and other fields may stand among them, which are not looked at beyond their form; each of
the three must be there once, as a text. An array of the three texts is taken as well.
-/

namespace Fluxion.Derivation

/-- A derivation as JSON. -/
def toJson (d : Derivation) : Json :=
  .ofMembers [("input", .ofText d.input), ("function", .ofText d.function),
    ("derivative", .ofText d.derivative)]

/-- The text in which a derivation is kept. -/
def toJsonText (d : Derivation) : String := d.toJson.toText

/-- The text of the only member of some name. -/
def onlyText? (members : List (String × Json)) (name : String) : Option String :=
  match members.filter (·.1 = name) with
  | [(_, value)] => value.text?
  | _ => none

/-- The derivation that a value stands for. -/
def ofJson? (value : Json) : Option Derivation :=
  match value with
  | .array [input, function, derivative] => do
    return ⟨← input.text?, ← function.text?, ← derivative.text?⟩
  | value => do
    let members ← value.members?
    return ⟨← onlyText? members "input", ← onlyText? members "function",
      ← onlyText? members "derivative"⟩

/-- The derivation that is kept in a text. -/
def ofJsonText? (text : String) : Option Derivation := do
  ofJson? (← Json.read? text)

end Fluxion.Derivation
