import Fluxion.Derivation
import Fluxion.Proofs.Lexemes

/-!
# Spellings

The same formula can be written with other brackets and other spaces. The scanner reads a layout as its
lexemes, whatever stands between them (`Layout.IsLexical.scanFrom_eq`), so a text that is spelled again
has the same kinds of tokens. And the reader is blind to all the rest: forgetting places, and the shapes
of brackets, before reading is the same as reading and then forgetting them in the error
(`Formula.ofTokens_plain`). Hence both texts give the same formula, or the same error but for these
(`Formula.ofText_of_respelling`).
-/

namespace Fluxion

/-! ### Without places and shapes -/

/-- The token without its place, and without its shape if it is a bracket. -/
def Token.plain (token : Token) : Token where
  kind := token.kind
  text := if token.kind = .openBracket ∨ token.kind = .closeBracket then "" else token.text
  span := .emptyAt 0

theorem Token.plain_eq {token : Token} (ho : token.kind ≠ .openBracket)
    (hc : token.kind ≠ .closeBracket) : token.plain = { token with span := .emptyAt 0 } := by
  rw [plain, if_neg (not_or.mpr ⟨ho, hc⟩)]

/-- The error without its place. -/
def ScanError.plain : ScanError → ScanError
  | .digitInWord text _ => .digitInWord text (.emptyAt 0)
  | .unknownWord text _ => .unknownWord text (.emptyAt 0)
  | .badNumeral text _ => .badNumeral text (.emptyAt 0)

/-- The error without its place, and without the shape of a bracket that it names. -/
def ReadError.plain : ReadError → ReadError
  | .scan cause => .scan cause.plain
  | .emptyInput => .emptyInput
  | .unclosedBracket _ => .unclosedBracket 0
  | .missingOperand => .missingOperand
  | .missingArgument name => .missingArgument name
  | .unexpected token => .unexpected token.plain

/-- The result with a plain error. -/
def ReadError.plainly {α : Type} (result : Except ReadError α) : Except ReadError α :=
  result.mapError plain

theorem ReadError.plainly_map {α β : Type} (result : Except ReadError α) (f : α → β) :
    plainly (result.map f) = (plainly result).map f := by
  cases result <;> rfl

/-- The frame with its token plain. The name of a minus or function is kept. -/
def Frame.plain : Frame → Frame
  | .bracket => .bracket
  | .unary token => .unary { token with span := .emptyAt 0 }
  | .infixed left token => .infixed left token.plain

namespace Reading

variable (frames : List Frame) (token : Token) (a : Formula)

/-- The reading with plain frames. -/
def plain : Reading → Reading
  | .wants frames => .wants (frames.map Frame.plain)
  | .holds frames a => .holds (frames.map Frame.plain) a
  | .done a => .done a

theorem hold_plain : hold a (frames.map Frame.plain) = (hold a frames).plain := by
  induction frames generalizing a with
  | nil => rfl
  | cons frame frames ih =>
    cases frame with
    | unary token => exact ih (applyUnary token a)
    | bracket | infixed => rfl

theorem missing_plain : missing (frames.map Frame.plain) = (missing frames).plain := by
  have hawaited : awaited? (frames.map Frame.plain) = awaited? frames := by
    induction frames with
    | nil => rfl
    | cons frame frames ih =>
      cases frame with
      | unary => rfl
      | bracket | infixed => exact ih
  rw [missing, missing, hawaited]
  split <;> rfl

theorem takeOperand_plain : takeOperand (frames.map Frame.plain) token.plain =
    ReadError.plainly ((takeOperand frames token).map plain) := by
  have hkind : token.plain.kind = token.kind := rfl
  have hunary (ho : token.kind ≠ .openBracket) (hc : token.kind ≠ .closeBracket) :
      Frame.unary token.plain = (Frame.unary token).plain :=
    congrArg Frame.unary (Token.plain_eq ho hc)
  unfold takeOperand
  rw [hkind]
  cases hk : token.kind with
  | numeral =>
    have htext : token.plain.text = token.text := by
      rw [Token.plain_eq (by simp [hk]) (by simp [hk])]
    simp only [htext]
    cases Binary64.ofText? token.text with
    | none => rfl
    | some value => exact congrArg Except.ok (hold_plain frames (.number value))
  | var => exact congrArg Except.ok (hold_plain frames .var)
  | constant c => exact congrArg Except.ok (hold_plain frames (.constant c))
  | endOfInput => exact congrArg Except.error (missing_plain frames)
  | openBracket | closeBracket => rfl
  | function f =>
    simp only [hunary (by simp [hk]) (by simp [hk])]
    rfl
  | operator op =>
    cases op with
    | sub =>
      simp only [hunary (by simp [hk]) (by simp [hk])]
      rfl
    | add | mul | div | pow => rfl

theorem combine_plain (left right : Formula) :
    combine left token.plain right = ReadError.plainly (combine left token right) := by
  have hkind : token.plain.kind = token.kind := rfl
  unfold combine
  rw [hkind]
  cases token.kind <;> rfl

theorem reduce_plain (p : Int) : reduce p (frames.map Frame.plain) a =
    ReadError.plainly ((reduce p frames a).map (Prod.map (List.map Frame.plain) id)) := by
  induction frames generalizing a with
  | nil => rfl
  | cons frame frames ih =>
    cases frame with
    | bracket | unary => rfl
    | infixed left token =>
      have hkind : token.plain.kind = token.kind := rfl
      rw [List.map_cons, Frame.plain, reduce, reduce, hkind, combine_plain]
      split
      · cases combine left token a with
        | error cause => rfl
        | ok b => exact ih b
      · rfl

theorem close_plain : close token.plain (frames.map Frame.plain) a =
    ReadError.plainly ((close token frames a).map plain) := by
  have hkind : token.plain.kind = token.kind := rfl
  have hisEnd : token.plain.isEnd = token.isEnd := rfl
  match frames with
  | .bracket :: frames =>
    rw [List.map_cons, Frame.plain, close, close, hkind]
    split
    · exact congrArg Except.ok (hold_plain frames a)
    · rfl
  | [] | .unary _ :: _ | .infixed _ _ :: _ =>
    simp only [List.map_cons, List.map_nil, Frame.plain, close, hisEnd]
    split <;> rfl

theorem takeOperator_plain : takeOperator (frames.map Frame.plain) a token.plain =
    ReadError.plainly ((takeOperator frames a token).map plain) := by
  have hkind : token.plain.kind = token.kind := rfl
  unfold takeOperator
  rw [hkind, reduce_plain]
  cases reduce token.kind.precedence frames a with
  | error cause => rfl
  | ok reduced =>
    obtain ⟨frames', a'⟩ := reduced
    simp only [Except.map, ReadError.plainly, Except.mapError, bind, Except.bind, Prod.map, id]
    split
    · rfl
    · exact close_plain frames' token a'

/-- Plain readings read plain tokens as readings do. -/
theorem step_plain (r : Reading) (token : Token) :
    r.plain.step token.plain = ReadError.plainly ((r.step token).map plain) := by
  cases r with
  | wants frames => exact takeOperand_plain frames token
  | holds frames a => exact takeOperator_plain frames token a
  | done a => rfl

theorem run_plain (r : Reading) (tokens : List Token) :
    r.plain.run (tokens.map Token.plain) = ReadError.plainly ((r.run tokens).map plain) := by
  induction tokens generalizing r with
  | nil => rfl
  | cons token tokens ih =>
    rw [List.map_cons, run_cons, run_cons, step_plain]
    cases r.step token with
    | error cause => rfl
    | ok next => exact ih next

theorem finish_plain (r : Reading) (offset : Nat) :
    r.plain.finish 0 = ReadError.plainly (r.finish offset) := by
  have hend : Token.endAt 0 = (Token.endAt offset).plain := rfl
  rw [finish, finish, hend, step_plain]
  cases r.step (.endAt offset) with
  | error cause => rfl
  | ok next =>
    cases next with
    | done a => rfl
    | wants frames => exact congrArg Except.error (missing_plain frames)
    | holds frames a => exact congrArg Except.error (missing_plain frames)

end Reading

/-- **The reader sees neither places nor the shapes of brackets.** -/
theorem Formula.ofTokens_plain (tokens : List Token) :
    ofTokens (tokens.map Token.plain) = ReadError.plainly (ofTokens tokens) := by
  unfold ofTokens
  rw [List.getLast?_map]
  cases tokens.getLast? with
  | none => rfl
  | some last =>
    have hrun : (Reading.wants []).run (tokens.map Token.plain) =
        ReadError.plainly (((Reading.wants []).run tokens).map Reading.plain) :=
      Reading.run_plain (.wants []) tokens
    rw [Option.map_some]
    simp only [hrun]
    cases (Reading.wants []).run tokens with
    | error cause => rfl
    | ok r => exact r.finish_plain last.span.stop

/-! ### Other spellings -/

/-- The shapes of the brackets of a kind. -/
def Token.Kind.shapes : Kind → List (List Char)
  | .openBracket => [['('], ['['], ['\x7b']]
  | .closeBracket => [[')'], [']'], ['\x7d']]
  | .numeral | .var | .constant _ | .operator _ | .function _ | .endOfInput => []

theorem Token.Kind.eq_of_mem_shapes {kind : Kind} {text : List Char} (h : text ∈ kind.shapes) :
    kind = .openBracket ∨ kind = .closeBracket := by
  cases kind with
  | openBracket => exact .inl rfl
  | closeBracket => exact .inr rfl
  | numeral | var | constant | operator | function | endOfInput => exact absurd h List.not_mem_nil

/-- Each shape is a keyword. -/
theorem Token.Kind.mem_keywords_of_mem_shapes {kind : Kind} {text : List Char}
    (h : text ∈ kind.shapes) : (text, kind) ∈ keywords := by
  rcases eq_of_mem_shapes h with rfl | rfl
  all_goals
    simp only [shapes, List.mem_cons, List.not_mem_nil, or_false] at h
    rcases h with rfl | rfl | rfl <;> decide

/-- The lexeme spells the token: in its own characters, or as a bracket of another shape. -/
structure Lexeme.Respells (l : Lexeme) (token : Token) : Prop where
  kind : l.kind = token.kind
  text : l.text = token.text.toList ∨ l.text ∈ token.kind.shapes

/-- The lexemes spell the tokens, and numerals have a space between them. -/
structure Layout.Respells (layout : Layout) (tokens : List Token) : Prop where
  lexemes : List.Forall₂ Lexeme.Respells layout.lexemes tokens
  apart : layout.lexemes.IsChain Lexeme.Apart

/-- The second text spells the tokens of the first: it differs in the shapes of brackets and in spaces
around the tokens, but none is missing between two numerals. -/
def IsRespelling (s s' : String) : Prop :=
  ∃ tokens layout, Token.scan s = .ok tokens ∧ Layout.Respells layout tokens ∧ layout.chars = s'.toList

namespace Lexeme

variable {l l' : Lexeme} {ls ls' : List Lexeme} {token : Token} {tokens : List Token} {offset : Nat}

theorem Respells.isLexical (h : l'.Respells (l.token offset)) (hl : l.IsLexical) : l'.IsLexical := by
  obtain ⟨hkind, htext | hshape⟩ := h
  · have htext : l'.text = l.text := by simpa [Lexeme.token] using htext
    rw [IsLexical, hkind, htext]
    exact hl
  · rw [IsLexical, hkind]
    exact .inl (Token.Kind.mem_keywords_of_mem_shapes hshape)

theorem Respells.plain_eq (h : l.Respells token) (offset : Nat) :
    (l.token offset).plain = token.plain := by
  obtain ⟨hkind, htext | hshape⟩ := h
  · have htext : String.ofList l.text = token.text := by simp [htext]
    simp [Token.plain, Lexeme.token, hkind, htext]
  · simp [Token.plain, Lexeme.token, hkind, Token.Kind.eq_of_mem_shapes hshape]

/-- What spells lexemes again are lexemes. -/
theorem isLexical_of_respells (h : List.Forall₂ Respells ls' (Lexeme.tokens offset ls))
    (hls : ∀ l ∈ ls, l.IsLexical) : ∀ l' ∈ ls', l'.IsLexical := by
  induction ls generalizing ls' offset with
  | nil =>
    cases h
    exact nofun
  | cons l ls ih =>
    obtain ⟨hl, hls⟩ := List.forall_mem_cons.mp hls
    cases h with
    | cons hhead htail => exact List.forall_mem_cons.mpr ⟨hhead.isLexical hl, ih htail hls⟩

theorem map_plain_of_respells (h : List.Forall₂ Respells ls tokens) (offset : Nat) :
    (Lexeme.tokens offset ls).map Token.plain = tokens.map Token.plain := by
  induction h generalizing offset with
  | nil => rfl
  | cons hhead _ ih => rw [Lexeme.tokens, List.map_cons, List.map_cons, hhead.plain_eq, ih]

end Lexeme

/-- A text that is spelled again is scanned, as the same tokens but for places and shapes. -/
theorem IsRespelling.exists_scan {s s' : String} (h : IsRespelling s s') :
    ∃ tokens tokens', Token.scan s = .ok tokens ∧ Token.scan s' = .ok tokens' ∧
      tokens'.map Token.plain = tokens.map Token.plain := by
  obtain ⟨tokens, layout', hscan, ⟨hlexemes, hapart⟩, hchars⟩ := h
  obtain ⟨layout, hlexical, -, rfl⟩ := Layout.exists_of_scanFrom hscan
  have hlexical' : layout'.IsLexical :=
    ⟨Lexeme.isLexical_of_respells hlexemes hlexical.lexemes, hapart⟩
  refine ⟨_, layout'.tokens 0, hscan, ?_, Lexeme.map_plain_of_respells hlexemes 0⟩
  rw [Token.scan, ← hchars]
  exact hlexical'.scanFrom_eq 0

namespace Formula

/-- **Spelling does not matter.** A text that is spelled again has the same kinds of tokens, and it is read
as the same formula, or refused for the same cause; so the same texts are derived from it. -/
theorem ofText_of_respelling {s s' : String} (h : IsRespelling s s') :
    (∃ tokens tokens', Token.scan s = .ok tokens ∧ Token.scan s' = .ok tokens' ∧
        tokens'.map Token.kind = tokens.map Token.kind) ∧
      ReadError.plainly (ofText s') = ReadError.plainly (ofText s) ∧
      ReadError.plainly ((Derivation.ofText s').map fun d => (d.function, d.derivative)) =
        ReadError.plainly ((Derivation.ofText s).map fun d => (d.function, d.derivative)) := by
  obtain ⟨tokens, tokens', hscan, hscan', hplain⟩ := h.exists_scan
  have hkinds : (tokens'.map Token.plain).map Token.kind = (tokens.map Token.plain).map Token.kind :=
    congrArg (List.map Token.kind) hplain
  rw [List.map_map, List.map_map] at hkinds
  have hread : ReadError.plainly (ofText s') = ReadError.plainly (ofText s) := by
    simp only [ofText, hscan, hscan', ← ofTokens_plain, hplain]
  have hderived (s : String) : ReadError.plainly
      ((Derivation.ofText s).map fun d => (d.function, d.derivative)) =
        (ReadError.plainly (ofText s)).map fun a => (a.text, a.derivative.text) := by
    rw [← ReadError.plainly_map, Derivation.ofText]
    cases ofText s <;> rfl
  exact ⟨⟨tokens, tokens', hscan, hscan', hkinds⟩, hread, by rw [hderived, hderived, hread]⟩

/-- The bracket that is not closed has another shape and another place. -/
theorem ofText_of_respelling_bracket :
    IsRespelling "sin(x" "sin [ x " ∧ ofText "sin(x" = .error (.unclosedBracket 5) ∧
      ofText "sin [ x " = .error (.unclosedBracket 7) ∧
      ReadError.plainly (ofText "sin [ x ") = ReadError.plainly (ofText "sin(x") := by
  have h : IsRespelling "sin(x" "sin [ x " := by
    refine ⟨[⟨.function .sin, "sin", ⟨0, 3⟩⟩, ⟨.openBracket, "(", ⟨3, 4⟩⟩, ⟨.var, "x", ⟨4, 5⟩⟩],
      ⟨[⟨0, .function .sin, ['s', 'i', 'n']⟩, ⟨1, .openBracket, ['[']⟩, ⟨1, .var, ['x']⟩], 1⟩,
      rfl, ⟨?_, by simp [Lexeme.Apart]⟩, rfl⟩
    exact .cons ⟨rfl, .inl rfl⟩ (.cons ⟨rfl, .inr (by decide)⟩ (.cons ⟨rfl, .inl rfl⟩ .nil))
  exact ⟨h, rfl, rfl, (ofText_of_respelling h).2.1⟩

end Formula

end Fluxion
