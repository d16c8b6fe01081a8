import Fluxion.Binary64.Numeral
import Fluxion.Error

/-!
# Scanning

A text is split into tokens in one pass over its characters, which keeps the text read since the
last token.

* A space ends the pending text.
* A digit or a point continues the pending text as a numeral, whatever that text was; but a digit
  may not follow a word that holds a letter.
* Any other character ends a pending numeral and continues a pending word. As soon as the word is a
  keyword it is a token, so `sinx` is `sin` and `x`.

Ended pending text is a token if it is a numeral for a finite number, and refused otherwise. Offsets
count bytes of the UTF-8 form.
-/

namespace Fluxion

/-! ### Keywords -/

/-- The words and signs that are tokens, with their kinds. -/
def keywords : List (List Char × Token.Kind) :=
  NamedFunction.all.map (fun f => (f.letters, Token.Kind.function f)) ++
    [Constant.e, Constant.pi].map (fun c => (c.letters, Token.Kind.constant c)) ++
    [Operator.pow, .add, .sub, .div, .mul].map (fun op => ([op.sign], Token.Kind.operator op)) ++
    [(['x'], .var),
      (['('], .openBracket), (['['], .openBracket), (['\x7b'], .openBracket),
      ([')'], .closeBracket), ([']'], .closeBracket), (['\x7d'], .closeBracket)]

/-- The kind of a keyword. -/
def keyword? (text : List Char) : Option Token.Kind := keywords.lookup text

/-! ### Pending text -/

/-- The text read since the last token, and where it began. -/
inductive Pending where
  /-- There is none. -/
  | nothing
  /-- Characters that are not a keyword yet. -/
  | word (start : Nat) (text : List Char)
  /-- Characters that end in digits and points. -/
  | numeral (start : Nat) (text : List Char)
  deriving DecidableEq

namespace Pending

/-- The characters of the pending text. -/
def text : Pending → List Char
  | .nothing => []
  | .word _ text | .numeral _ text => text

/-- Where the pending text begins, if a next character at the offset is counted in. -/
def start (offset : Nat) : Pending → Nat
  | .nothing => offset
  | .word start _ | .numeral start _ => start

/-- Ends the pending text before an offset. -/
def finish (offset : Nat) : Pending → Except ScanError (List Token)
  | .nothing => .ok []
  | .word start text => .error (.unknownWord (String.ofList text) ⟨start, offset⟩)
  | .numeral start text =>
    if (Binary64.ofList? text).any Binary64.isFinite then
      .ok [⟨.numeral, String.ofList text, ⟨start, offset⟩⟩]
    else
      .error (.badNumeral (String.ofList text) ⟨start, offset⟩)

/-- Continues the pending text, as a word, with the character at an offset; if it is now a keyword
it is a token, and nothing is pending. -/
def extendWord (offset : Nat) (c : Char) (pending : Pending) : List Token × Pending :=
  let start := pending.start offset
  let text := pending.text ++ [c]
  match keyword? text with
  | some kind => ([⟨kind, String.ofList text, ⟨start, offset + c.utf8Size⟩⟩], .nothing)
  | none => ([], .word start text)

/-- Reads the character at an offset: the tokens that it completes, and what is pending then. -/
def step (pending : Pending) (offset : Nat) (c : Char) : Except ScanError (List Token × Pending) :=
  if c = ' ' then do
    let tokens ← pending.finish offset
    return (tokens, .nothing)
  else if c.isDigit && pending.text.any Char.isAlpha then
    .error (.digitInWord (String.ofList (pending.text ++ [c]))
      ⟨pending.start offset, offset + c.utf8Size⟩)
  else if c.isDigit || c = '.' then
    .ok ([], .numeral (pending.start offset) (pending.text ++ [c]))
  else
    match pending with
    | .numeral _ _ => do
      let tokens ← pending.finish offset
      let (more, pending) := extendWord offset c .nothing
      return (tokens ++ more, pending)
    | _ => .ok (pending.extendWord offset c)

end Pending

/-! ### Texts -/

namespace Token

/-- The tokens of the characters from an offset on, after some pending text. -/
def scanFrom (pending : Pending) (offset : Nat) : List Char → Except ScanError (List Token)
  | [] => pending.finish offset
  | c :: rest => do
    let (tokens, pending) ← pending.step offset c
    let more ← scanFrom pending (offset + c.utf8Size) rest
    return tokens ++ more

/-- The tokens of a text. -/
def scan (text : String) : Except ScanError (List Token) := scanFrom .nothing 0 text.toList

end Token

end Fluxion
