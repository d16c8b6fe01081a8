import Fluxion.Json.Basic

/-!
# The lexemes of JSON

A JSON text is a list of lexemes with blanks between them: the marks that hold arrays and objects
together, strings, and the other values without parts.
-/

namespace Fluxion.Json

/-- A lexeme of a JSON text. -/
inductive Lexeme where
  /-- The beginning of an array. -/
  | openArray
  /-- The end of an array. -/
  | closeArray
  /-- The beginning of an object. -/
  | openObject
  /-- The end of an object. -/
  | closeObject
  /-- The mark between a name and its value. -/
  | colon
  /-- The mark between items or members. -/
  | comma
  /-- A string. -/
  | string (content : List Piece)
  /-- A null value, a truth value or a number. -/
  | scalar (value : Json)

/-- Whether a character may stand between lexemes. -/
def isBlank (c : Char) : Bool := c = ' ' || c = '\t' || c = '\n' || c = '\r'

/-! ### Strings -/

/-- The value of a hexadecimal digit. -/
def hexDigit? (c : Char) : Option Nat :=
  if c.isDigit then some (c.toNat - '0'.toNat)
  else if 'a' ≤ c ∧ c ≤ 'f' then some (c.toNat - 'a'.toNat + 10)
  else if 'A' ≤ c ∧ c ≤ 'F' then some (c.toNat - 'A'.toNat + 10)
  else none

/-- The code unit that four hexadecimal digits spell. -/
def unit? (a b c d : Char) : Option Nat := do
  return (((← hexDigit? a) * 16 + (← hexDigit? b)) * 16 + (← hexDigit? c)) * 16 + (← hexDigit? d)

/-- The piece that a code unit is. -/
def Piece.ofUnit (unit : Nat) : Piece :=
  if isLeadingHalf unit || isTrailingHalf unit then .half unit else .char (Char.ofNat unit)

/-- The character that an escape of two characters stands for. -/
def unescape? (c : Char) : Option Char :=
  [('"', '"'), ('\\', '\\'), ('/', '/'), ('b', '\x08'), ('f', '\x0c'), ('n', '\n'), ('r', '\r'),
    ('t', '\t')].lookup c

/-- The pieces of a string up to its closing quote, and what follows it. Control characters below
`U+0020` must be escaped. -/
def stringBody? : List Char → Option (List Piece × List Char)
  | [] => none
  | '"' :: rest => some ([], rest)
  | '\\' :: 'u' :: a :: b :: c :: d :: rest =>
    match unit? a b c d, stringBody? rest with
    | some unit, some (content, rest) => some (.ofUnit unit :: content, rest)
    | _, _ => none
  | '\\' :: c :: rest =>
    match unescape? c, stringBody? rest with
    | some c, some (content, rest) => some (.char c :: content, rest)
    | _, _ => none
  | c :: rest =>
    if c = '\\' ∨ c.toNat < 0x20 then none
    else
      match stringBody? rest with
      | some (content, rest) => some (.char c :: content, rest)
      | none => none

theorem length_stringBody? {text rest : List Char} {content : List Piece}
    (h : stringBody? text = some (content, rest)) : rest.length < text.length := by
  fun_induction stringBody? text generalizing content with
  | case1 => simp at h
  | case2 =>
    simp only [Option.some.injEq, Prod.mk.injEq] at h
    simp [h.2]
  | case3 a b c d tail unit body left hbody _ ih =>
    simp only [Option.some.injEq, Prod.mk.injEq] at h
    have := ih (h.2 ▸ hbody)
    simp only [List.length_cons]
    omega
  | case5 c tail _ c' body left hbody _ ih =>
    simp only [Option.some.injEq, Prod.mk.injEq] at h
    have := ih (h.2 ▸ hbody)
    simp only [List.length_cons]
    omega
  | case8 c tail _ _ _ _ body left hbody ih =>
    simp only [Option.some.injEq, Prod.mk.injEq] at h
    have := ih (h.2 ▸ hbody)
    simp only [List.length_cons]
    omega
  | _ => simp at h

/-! ### Numbers -/

/-- The digits at the beginning of a text and what follows them, if there is a digit. -/
def digits? (text : List Char) : Option (List Char × List Char) :=
  if text.takeWhile Char.isDigit = [] then none
  else some (text.takeWhile Char.isDigit, text.dropWhile Char.isDigit)

/-- The digits before the point: no zero stands in front of another digit. -/
def whole? (text : List Char) : Option (List Char × List Char) :=
  (digits? text).filter fun (digits, _) => digits = ['0'] || digits.head? != some '0'

/-- A point and digits behind it, if there is a point. -/
def fraction? : List Char → Option (List Char × List Char)
  | '.' :: rest => (digits? rest).map fun (digits, rest) => ('.' :: digits, rest)
  | text => some ([], text)

/-- A sign, if there is one of the given signs. -/
def sign (signs : List Char) : List Char → List Char × List Char
  | c :: rest => if c ∈ signs then ([c], rest) else ([], c :: rest)
  | [] => ([], [])

/-- A power of ten, if there is one. -/
def power? : List Char → Option (List Char × List Char)
  | c :: rest =>
    if c = 'e' ∨ c = 'E' then
      let (signed, rest) := sign ['+', '-'] rest
      (digits? rest).map fun (digits, rest) => (c :: signed ++ digits, rest)
    else
      some ([], c :: rest)
  | [] => some ([], [])

/-- The number at the beginning of a text, and what follows it. -/
def number? (text : List Char) : Option (List Char × List Char) := do
  let (minus, rest) := sign ['-'] text
  let (whole, rest) ← whole? rest
  let (fraction, rest) ← fraction? rest
  let (power, rest) ← power? rest
  return (minus ++ whole ++ fraction ++ power, rest)

theorem length_digits? {text digits rest : List Char} (h : digits? text = some (digits, rest)) :
    rest.length < text.length := by
  unfold digits? at h
  split at h
  · simp at h
  · next hne =>
    simp only [Option.some.injEq, Prod.mk.injEq] at h
    rw [← h.2]
    have hpos : 0 < (text.takeWhile Char.isDigit).length := List.length_pos_iff.mpr hne
    have hsum := congrArg List.length (List.takeWhile_append_dropWhile (p := Char.isDigit) (l := text))
    rw [List.length_append] at hsum
    omega

theorem length_whole? {text whole rest : List Char} (h : whole? text = some (whole, rest)) :
    rest.length < text.length :=
  length_digits? (Option.filter_eq_some_iff.mp h).1

theorem length_fraction? {text fraction rest : List Char}
    (h : fraction? text = some (fraction, rest)) : rest.length ≤ text.length := by
  unfold fraction? at h
  split at h
  · obtain ⟨⟨digits, rest'⟩, hd, heq⟩ := Option.map_eq_some_iff.mp h
    simp only [Prod.mk.injEq] at heq
    have := length_digits? (heq.2 ▸ hd)
    simp only [List.length_cons]
    omega
  · simp only [Option.some.injEq, Prod.mk.injEq] at h
    obtain ⟨-, rfl⟩ := h
    exact Nat.le_refl _

theorem length_sign (signs text : List Char) : (sign signs text).2.length ≤ text.length := by
  cases text with
  | nil => simp [sign]
  | cons c rest =>
    simp only [sign]
    split <;> simp

theorem length_power? {text power rest : List Char} (h : power? text = some (power, rest)) :
    rest.length ≤ text.length := by
  cases text with
  | nil =>
    simp only [power?, Option.some.injEq, Prod.mk.injEq] at h
    obtain ⟨-, rfl⟩ := h
    exact Nat.le_refl _
  | cons c tail =>
    simp only [power?] at h
    split at h
    · obtain ⟨⟨digits, rest'⟩, hd, heq⟩ := Option.map_eq_some_iff.mp h
      simp only [Prod.mk.injEq] at heq
      have hlt := length_digits? (heq.2 ▸ hd)
      have hle := length_sign ['+', '-'] tail
      simp only [List.length_cons]
      omega
    · simp only [Option.some.injEq, Prod.mk.injEq] at h
      obtain ⟨-, rfl⟩ := h
      exact Nat.le_refl _

theorem length_number? {text literal rest : List Char}
    (h : number? text = some (literal, rest)) : rest.length < text.length := by
  simp only [number?, Option.bind_eq_bind, Option.pure_def, Option.bind_eq_some_iff,
    Option.some.injEq, Prod.mk.injEq, Prod.exists] at h
  obtain ⟨whole, rest₁, hwhole, fraction, rest₂, hfraction, power, rest₃, hpower, -, rfl⟩ := h
  have h0 := length_sign ['-'] text
  have h1 := length_whole? hwhole
  have h2 := length_fraction? hfraction
  have h3 := length_power? hpower
  omega

/-! ### Texts -/

/-- The marks and the lexemes they are. -/
def marks : List (Char × Lexeme) :=
  [('[', .openArray), (']', .closeArray), ('\x7b', .openObject), ('\x7d', .closeObject),
    (':', .colon), (',', .comma)]

/-- The named values: the first letter, the other letters and the value. -/
def words : List (Char × List Char × Json) :=
  [('n', ['u', 'l', 'l'], .null), ('t', ['r', 'u', 'e'], .bool true),
    ('f', ['a', 'l', 's', 'e'], .bool false)]

/-- What follows some letters at the beginning of a text. -/
def afterWord? (letters text : List Char) : Option (List Char) :=
  if letters.isPrefixOf text then some (text.drop letters.length) else none

/-- The lexeme that begins with a character and goes on in the text after it, and what follows. -/
def lexeme? (c : Char) (rest : List Char) : Option (Lexeme × List Char) :=
  match marks.lookup c, words.lookup c with
  | some mark, _ => some (mark, rest)
  | none, some (letters, value) => (afterWord? letters rest).map (.scalar value, ·)
  | none, none =>
    if c = '"' then
      (stringBody? rest).map fun (content, rest) => (.string content, rest)
    else
      (number? (c :: rest)).map fun (literal, rest) => (.scalar (.number literal), rest)

theorem length_lexeme? {c : Char} {text rest : List Char} {lexeme : Lexeme}
    (h : lexeme? c text = some (lexeme, rest)) : rest.length ≤ text.length := by
  unfold lexeme? at h
  split at h
  · simp only [Option.some.injEq, Prod.mk.injEq] at h
    obtain ⟨-, rfl⟩ := h
    exact Nat.le_refl _
  · obtain ⟨rest', ha, heq⟩ := Option.map_eq_some_iff.mp h
    simp only [Prod.mk.injEq] at heq
    unfold afterWord? at ha
    split at ha
    · simp only [Option.some.injEq] at ha
      rw [← heq.2, ← ha, List.length_drop]
      omega
    · simp at ha
  · split at h
    · obtain ⟨⟨content, rest'⟩, hs, heq⟩ := Option.map_eq_some_iff.mp h
      simp only [Prod.mk.injEq] at heq
      have := length_stringBody? (heq.2 ▸ hs)
      omega
    · obtain ⟨⟨literal, rest'⟩, hn, heq⟩ := Option.map_eq_some_iff.mp h
      simp only [Prod.mk.injEq] at heq
      have := length_number? (heq.2 ▸ hn)
      simp only [List.length_cons] at this
      omega

/-- The lexemes of a text. -/
def lexemes? : List Char → Option (List Lexeme)
  | [] => some []
  | c :: rest =>
    if isBlank c then lexemes? rest
    else
      match h : lexeme? c rest with
      | some (lexeme, rest') =>
        have := length_lexeme? h
        (lexemes? rest').map (lexeme :: ·)
      | none => none
termination_by text => text.length
decreasing_by all_goals simp only [List.length_cons]; omega

end Fluxion.Json
