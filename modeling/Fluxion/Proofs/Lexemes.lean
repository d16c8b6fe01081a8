import Fluxion.Proofs.Numbers
import Fluxion.Proofs.Symbols

/-!
# The lexical language

The scanner keeps pending text and decides from character to character. What it accepts can be said
without it: a text is a list of lexemes, which are keywords and numerals, with any number of spaces in
front of each and at the end, where a numeral behind a numeral needs a space (`Layout.IsLexical`). Each
such layout is scanned as its lexemes (`Layout.IsLexical.scanFrom_eq`), and so a text has one layout at
most; and each text that is scanned has a layout (`Layout.exists_of_scanFrom`). What carries the second
half is that pending text can still become a lexeme only as long as it begins like one
(`Pending.IsOpen`): if it begins with a letter, no digits behind it make it a number.
-/

namespace Fluxion

/-! ### Layouts -/

/-- A keyword or a numeral, with the spaces in front of it. -/
structure Lexeme where
  /-- How many spaces stand in front. -/
  spaces : Nat
  /-- What the lexeme stands for. -/
  kind : Token.Kind
  /-- The characters. -/
  text : List Char
  deriving DecidableEq

namespace Lexeme

/-- A lexeme is a keyword with its kind, or a numeral. -/
def IsLexical (l : Lexeme) : Prop :=
  (l.text, l.kind) ∈ keywords ∨ l.kind = .numeral ∧ Token.IsNumeral l.text

/-- Two numerals have a space between them. -/
def Apart (l l' : Lexeme) : Prop := l.kind = .numeral → l'.kind = .numeral → 0 < l'.spaces

/-- The characters of a lexeme, spaces first. -/
def chars (l : Lexeme) : List Char := List.replicate l.spaces ' ' ++ l.text

/-- The token of a lexeme whose spaces begin at an offset. -/
def token (offset : Nat) (l : Lexeme) : Token :=
  ⟨l.kind, String.ofList l.text, offset + l.spaces, offset + l.spaces + l.text.length⟩

/-- The tokens of lexemes that begin at an offset. -/
def tokens : Nat → List Lexeme → List Token
  | _, [] => []
  | offset, l :: lexemes => l.token offset :: tokens (l.token offset).span.stop lexemes

theorem length_chars (l : Lexeme) (offset : Nat) :
    offset + l.chars.length = (l.token offset).span.stop := by
  simp [chars, token, Nat.add_assoc]

/-- The tokens tell the lexemes. -/
theorem tokens_injective {offset : Nat} {ls ls' : List Lexeme}
    (h : tokens offset ls = tokens offset ls') : ls = ls' := by
  induction ls generalizing offset ls' with
  | nil =>
    cases ls' with
    | nil => rfl
    | cons => cases h
  | cons l ls ih =>
    cases ls' with
    | nil => cases h
    | cons l' ls' =>
      obtain ⟨htoken, htokens⟩ := List.cons.inj h
      rw [htoken] at htokens
      simp only [token, Token.mk.injEq, Span.mk.injEq, String.ofList_inj] at htoken
      obtain ⟨hkind, htext, hstart, -⟩ := htoken
      have hl : l = l' := by
        cases l
        cases l'
        simp_all
      rw [hl, ih htokens]

end Lexeme

/-- A text taken apart: its lexemes, and the spaces at its end. -/
structure Layout where
  /-- The lexemes, from left to right. -/
  lexemes : List Lexeme
  /-- How many spaces stand at the end. -/
  trailing : Nat
  deriving DecidableEq

namespace Layout

/-- The characters of a layout. -/
def chars (layout : Layout) : List Char :=
  layout.lexemes.flatMap Lexeme.chars ++ List.replicate layout.trailing ' '

/-- The tokens of a layout that begins at an offset. -/
def tokens (offset : Nat) (layout : Layout) : List Token := Lexeme.tokens offset layout.lexemes

/-- All lexemes are such, and no numerals stand side by side. -/
structure IsLexical (layout : Layout) : Prop where
  lexemes : ∀ l ∈ layout.lexemes, l.IsLexical
  apart : layout.lexemes.IsChain Lexeme.Apart

end Layout

/-! ### Scanning layouts -/

theorem Token.scanFrom_replicate (n offset : Nat) (rest : List Char) :
    scanFrom .nothing offset (List.replicate n ' ' ++ rest) = scanFrom .nothing (offset + n) rest := by
  induction n generalizing offset with
  | zero => rfl
  | succ n ih => rw [List.replicate_succ, List.cons_append, scanFrom_space, ih, Nat.add_assoc,
      Nat.add_comm 1]

namespace Lexeme

variable {l l' : Lexeme} {ls : List Lexeme} {rest : List Char}

/-- A lexeme is scanned as its token. -/
theorem IsLexical.scanFrom_chars (h : l.IsLexical)
    (hrest : l.kind = .numeral → ∀ c ∈ rest.head?, ¬ Token.IsNumeralChar c) (offset : Nat) :
    Token.scanFrom .nothing offset (l.chars ++ rest) =
      (Token.scanFrom .nothing (l.token offset).span.stop rest).map (l.token offset :: ·) := by
  rw [chars, List.append_assoc, Token.scanFrom_replicate]
  rcases h with hkeyword | ⟨hkind, hnumeral⟩
  · exact Token.scanFrom_keyword hkeyword _ _
  · rw [Token.scanFrom_numeral hnumeral _ (hrest hkind), token, hkind]

/-- Without spaces only a numeral begins like a numeral. -/
theorem IsLexical.head_chars (h : l.IsLexical) (hspaces : l.kind = .numeral → 0 < l.spaces) :
    ∀ c ∈ (l.chars ++ rest).head?, ¬ Token.IsNumeralChar c := by
  intro c hc
  rw [chars] at hc
  cases hl : l.spaces with
  | succ n =>
    rw [hl] at hc
    obtain rfl : ' ' = c := by simpa [List.replicate_succ] using hc
    exact fun hnumeral => hnumeral.ne_space rfl
  | zero =>
    rw [hl] at hc
    rcases h with hkeyword | ⟨hkind, -⟩
    · obtain ⟨d, text, htext⟩ : ∃ d text, l.text = d :: text :=
        List.exists_cons_of_ne_nil (ne_nil_of_mem_keywords _ hkeyword)
      obtain rfl : d = c := by simpa [htext] using hc
      exact (isWordChar_of_mem_keywords hkeyword (by simp [htext])).not_isNumeralChar
    · exact absurd (hspaces hkind) (by omega)

end Lexeme

namespace Layout

variable {layout layout' : Layout}

/-- **A layout is scanned as its lexemes.** -/
theorem IsLexical.scanFrom_eq (h : layout.IsLexical) (offset : Nat) :
    Token.scanFrom .nothing offset layout.chars = .ok (layout.tokens offset) := by
  obtain ⟨lexemes, trailing⟩ := layout
  obtain ⟨hall, hapart⟩ := h
  simp only [chars, tokens] at *
  induction lexemes generalizing offset with
  | nil =>
    rw [List.flatMap_nil, List.nil_append, ← List.append_nil (List.replicate _ _),
      Token.scanFrom_replicate]
    rfl
  | cons l lexemes ih =>
    obtain ⟨hhead, htail⟩ := List.isChain_cons.mp hapart
    have hrest : l.kind = .numeral →
        ∀ c ∈ (lexemes.flatMap Lexeme.chars ++ List.replicate trailing ' ').head?,
          ¬ Token.IsNumeralChar c := by
      intro hkind
      cases lexemes with
      | nil =>
        cases trailing with
        | zero => simp
        | succ n =>
          simp only [List.replicate_succ, List.flatMap_nil, List.nil_append, List.head?_cons,
            Option.mem_some_iff, forall_eq']
          exact fun hnumeral => hnumeral.ne_space rfl
      | cons l' lexemes =>
        rw [List.flatMap_cons, List.append_assoc]
        exact (hall l' (by simp)).head_chars (hhead l' rfl hkind)
    rw [List.flatMap_cons, List.append_assoc, (hall l (by simp)).scanFrom_chars hrest,
      ih _ (fun l' hl' => hall l' (List.mem_cons_of_mem _ hl')) htail]
    rfl

/-- **A text has one layout at most.** -/
theorem IsLexical.unique (h : layout.IsLexical) (h' : layout'.IsLexical)
    (heq : layout.chars = layout'.chars) : layout = layout' := by
  have hscan := h.scanFrom_eq 0
  rw [heq, h'.scanFrom_eq 0] at hscan
  have hlexemes := Lexeme.tokens_injective (Except.ok.inj hscan).symm
  have hlength := congrArg List.length heq
  simp only [chars, hlexemes, List.length_append, List.length_replicate] at hlength
  cases layout
  cases layout'
  simp_all

/-! ### Putting layouts together -/

/-- A layout with one more lexeme in front. -/
def cons (l : Lexeme) (layout : Layout) : Layout := ⟨l :: layout.lexemes, layout.trailing⟩

/-- A layout with one more space in front. -/
def space : Layout → Layout
  | ⟨[], trailing⟩ => ⟨[], trailing + 1⟩
  | ⟨l :: lexemes, trailing⟩ => ⟨{ l with spaces := l.spaces + 1 } :: lexemes, trailing⟩

theorem chars_cons (l : Lexeme) (layout : Layout) :
    (layout.cons l).chars = l.chars ++ layout.chars := by
  simp [chars, cons]

theorem tokens_cons (l : Lexeme) (layout : Layout) (offset : Nat) :
    (layout.cons l).tokens offset =
      l.token offset :: layout.tokens (l.token offset).span.stop := rfl

theorem chars_space (layout : Layout) : layout.space.chars = ' ' :: layout.chars := by
  unfold space
  split <;> simp [chars, Lexeme.chars, List.replicate_succ]

theorem tokens_space (layout : Layout) (offset : Nat) :
    layout.space.tokens offset = layout.tokens (offset + 1) := by
  unfold space
  split
  · rfl
  · simp only [tokens, Lexeme.tokens, Lexeme.token, Nat.add_assoc, Nat.add_comm 1]

/-- A numeral may stand in front of what does not begin like a numeral. -/
theorem IsLexical.cons {l : Lexeme} (hl : l.IsLexical) (h : layout.IsLexical)
    (hhead : l.kind = .numeral → ∀ c ∈ layout.chars.head?, ¬ Token.IsNumeralChar c) :
    (layout.cons l).IsLexical := by
  refine ⟨List.forall_mem_cons.mpr ⟨hl, h.lexemes⟩, List.isChain_cons.mpr ⟨?_, h.apart⟩⟩
  intro l' hl' hkind hkind'
  obtain ⟨lexemes, hlexemes⟩ : ∃ lexemes, layout.lexemes = l' :: lexemes :=
    List.head?_eq_some_iff.mp hl'
  by_contra hspaces
  have hnumeral : Token.IsNumeral l'.text := by
    rcases h.lexemes l' (by simp [hlexemes]) with hkeyword | ⟨-, hnumeral⟩
    · exact absurd hkind' (kind_ne_numeral_of_mem_keywords _ hkeyword)
    · exact hnumeral
  obtain ⟨c, text, htext⟩ := List.exists_cons_of_ne_nil hnumeral.ne_nil
  refine hhead hkind c ?_ (hnumeral.chars c (by simp [htext]))
  simp [chars, hlexemes, Lexeme.chars, Nat.eq_zero_of_not_pos hspaces, htext]

theorem IsLexical.space (h : layout.IsLexical) : layout.space.IsLexical := by
  obtain ⟨lexemes, trailing⟩ := layout
  cases lexemes with
  | nil => exact ⟨nofun, .nil⟩
  | cons l lexemes =>
    obtain ⟨hl, hall⟩ := List.forall_mem_cons.mp h.lexemes
    obtain ⟨hhead, htail⟩ := List.isChain_cons.mp h.apart
    exact ⟨List.forall_mem_cons.mpr ⟨hl, hall⟩, List.isChain_cons.mpr ⟨hhead, htail⟩⟩

end Layout

/-! ### Pending text -/

/-- How many bytes the UTF-8 form of a text has. -/
def byteLength (text : List Char) : Nat := (text.map Char.utf8Size).sum

theorem byteLength_append (text text' : List Char) :
    byteLength (text ++ text') = byteLength text + byteLength text' := by
  simp [byteLength]

theorem byteLength_append_singleton (text : List Char) (c : Char) :
    byteLength (text ++ [c]) = byteLength text + c.utf8Size := byteLength_append text [c]

theorem byteLength_pos {text : List Char} (h : text ≠ []) : 0 < byteLength text := by
  obtain ⟨c, rest, rfl⟩ := List.exists_cons_of_ne_nil h
  exact Nat.add_pos_left c.utf8Size_pos _

theorem byteLength_eq_length {text : List Char} (h : ∀ c ∈ text, c.utf8Size = 1) :
    byteLength text = text.length := by
  induction text with
  | nil => rfl
  | cons c text ih =>
    obtain ⟨hc, htext⟩ := List.forall_mem_cons.mp h
    have := ih htext
    simp only [byteLength, List.map_cons, List.sum_cons, List.length_cons] at this ⊢
    omega

/-- A text that begins like a word, and with no sign. -/
def IsStray (text : List Char) : Prop :=
  ∃ c rest, text = c :: rest ∧ IsWordChar c ∧ c ≠ '-' ∧ c ≠ '+'

theorem IsStray.append {text : List Char} (h : IsStray text) (more : List Char) :
    IsStray (text ++ more) := by
  obtain ⟨c, rest, rfl, hc⟩ := h
  exact ⟨c, rest ++ more, rfl, hc⟩

/-- What begins like a word spells no finite number, whatever follows. -/
theorem IsStray.not_isFinite {text : List Char} (h : IsStray text) :
    (Binary64.ofList? text).any Binary64.isFinite = false := by
  obtain ⟨c, rest, rfl, ⟨-, hdigit, hpoint⟩, hminus, hplus⟩ := h
  have hsign : Decimal.splitSign (c :: rest) = (false, c :: rest) :=
    Decimal.splitSign_of_head? (by simpa using hminus) (by simpa using hplus)
  have hdecimal : Decimal.ofList? (c :: rest) = none := by
    have hfraction : Decimal.splitFraction (c :: rest) = ([], c :: rest) := by
      unfold Decimal.splitFraction
      split <;> simp_all
    simp [Decimal.ofList?, hdigit, hfraction]
  unfold Binary64.ofList?
  simp only [hsign, hdecimal, Option.map_none]
  split_ifs <;> rfl

namespace Pending

variable {pending pending' : Pending} {offset : Nat} {c : Char} {done more : List Token}
  {rest : List Char}

/-- Pending text begins like a word, or is a part of a numeral. -/
def Begins : Pending → Prop
  | .nothing => True
  | .word _ text => IsStray text
  | .numeral _ text => IsStray text ∨ ∀ c ∈ text, Token.IsNumeralChar c

/-- What holds of pending text before the character at an offset. -/
structure IsOpen (offset : Nat) (pending : Pending) : Prop where
  begins : pending.Begins
  start_add : pending.start offset + byteLength pending.text = offset

theorem isOpen_nothing (offset : Nat) : IsOpen offset .nothing := ⟨trivial, rfl⟩

/-- The tokens are those of a layout for the pending text and the characters that follow. -/
def Accounts (pending : Pending) (offset : Nat) (rest : List Char) (tokens : List Token) : Prop :=
  ∃ layout : Layout, layout.IsLexical ∧ layout.chars = pending.text ++ rest ∧
    layout.tokens (pending.start offset) = tokens

/-- Pending text that ends as a token is a numeral. -/
theorem IsOpen.accounts_of_finish (h : pending.IsOpen offset)
    (hfinish : pending.finish offset = .ok done) (hrest : ∀ c ∈ rest.head?, ¬ Token.IsNumeralChar c)
    (hmore : nothing.Accounts offset rest more) :
    pending.Accounts offset rest (done ++ more) := by
  cases pending with
  | nothing =>
    cases hfinish
    exact hmore
  | word => cases hfinish
  | numeral start text =>
    rw [finish] at hfinish
    split at hfinish
    · next hfinite =>
      cases hfinish
      obtain ⟨layout, hlexical, rfl, rfl⟩ := hmore
      rcases h.begins with hstray | hchars
      · exact absurd hfinite (by rw [hstray.not_isFinite]; exact Bool.false_ne_true)
      · have hlexeme : (Lexeme.mk 0 .numeral text).IsLexical := .inr ⟨rfl, hchars, hfinite⟩
        have hstop : start + text.length = offset := by
          rw [← byteLength_eq_length fun c hc => (hchars c hc).utf8Size_eq]
          exact h.start_add
        refine ⟨_, hlexical.cons hlexeme fun _ => hrest, ?_, ?_⟩
        · rw [Layout.chars_cons]
          rfl
        · simp only [Layout.tokens_cons, Lexeme.token, Pending.start, Nat.add_zero, hstop]
          rfl
    · cases hfinish

/-- Pending text that is continued as a word is a keyword at last. -/
theorem IsOpen.extendWord (h : pending.IsOpen offset) (hc : IsWordChar c)
    (hp : ∀ start text, pending ≠ .numeral start text)
    (hextend : pending.extendWord offset c = (done, pending')) :
    pending'.IsOpen (offset + c.utf8Size) ∧ ∀ rest more,
      pending'.Accounts (offset + c.utf8Size) rest more →
        pending.Accounts offset (c :: rest) (done ++ more) := by
  have hlength : pending.start offset + byteLength (pending.text ++ [c]) = offset + c.utf8Size := by
    rw [byteLength_append, ← Nat.add_assoc, h.start_add]
    rfl
  rcases extendWord_cases hextend with ⟨kind, hkeyword, rfl, rfl⟩ | ⟨hnone, rfl, rfl⟩
  · refine ⟨isOpen_nothing _, ?_⟩
    rintro _ _ ⟨layout, hlexical, hchars, htokens⟩
    have hmem := mem_keywords_of_keyword? hkeyword
    have hlexeme : (Lexeme.mk 0 kind (pending.text ++ [c])).IsLexical := .inl hmem
    have hkind : kind ≠ .numeral := kind_ne_numeral_of_mem_keywords _ hmem
    refine ⟨_, hlexical.cons hlexeme fun hk => absurd hk hkind, ?_, ?_⟩
    · rw [Layout.chars_cons, hchars]
      simp [Lexeme.chars, text]
    · rw [byteLength_eq_length fun d hd => utf8Size_of_mem_keywords hmem hd] at hlength
      simp only [Layout.tokens_cons, Lexeme.token, Nat.add_zero, hlength]
      exact congrArg _ htokens
  · refine ⟨⟨?_, hlength⟩, ?_⟩
    · cases pending with
      | nothing =>
        refine ⟨c, [], rfl, hc, ?_, ?_⟩ <;>
        · rintro rfl
          exact absurd hnone (by decide)
      | word start text => exact IsStray.append h.begins [c]
      | numeral start text => exact absurd rfl (hp start text)
    · rintro _ _ ⟨layout, hlexical, hchars, htokens⟩
      exact ⟨layout, hlexical, by simpa [Pending.text] using hchars, htokens⟩

/-- One more character is accounted for. -/
theorem IsOpen.step (h : pending.IsOpen offset)
    (hstep : pending.step offset c = .ok (done, pending')) :
    pending'.IsOpen (offset + c.utf8Size) ∧ ∀ rest more,
      pending'.Accounts (offset + c.utf8Size) rest more →
        pending.Accounts offset (c :: rest) (done ++ more) := by
  rcases step_cases hstep with ⟨rfl, hfinish, rfl⟩ | ⟨hc, -, rfl, rfl⟩ |
    ⟨hc, -, ended, more, hfinish, hextend, rfl⟩ | ⟨hc, hp, hextend⟩
  · refine ⟨isOpen_nothing _, ?_⟩
    rintro _ _ ⟨layout, hlexical, hchars, htokens⟩
    refine h.accounts_of_finish hfinish ?_ ⟨layout.space, hlexical.space, ?_, ?_⟩
    · simpa using fun hnumeral : Token.IsNumeralChar ' ' => hnumeral.ne_space rfl
    · rw [Layout.chars_space, hchars]
      rfl
    · rw [Layout.tokens_space]
      exact htokens
  · refine ⟨⟨?_, ?_⟩, ?_⟩
    · cases pending with
      | nothing => exact .inr (by simpa [Pending.text] using hc)
      | word start text => exact .inl (IsStray.append h.begins [c])
      | numeral start text =>
        refine h.begins.imp (·.append [c]) fun hall => ?_
        simpa [Pending.text, or_imp, forall_and, hc] using hall
    · change pending.start offset + byteLength (pending.text ++ [c]) = _
      rw [byteLength_append, ← Nat.add_assoc, h.start_add]
      rfl
    · rintro _ _ ⟨layout, hlexical, hchars, htokens⟩
      exact ⟨layout, hlexical, by simpa [Pending.text] using hchars, htokens⟩
  · -- the numeral ends, and a word begins
    obtain ⟨hopen, haccounts⟩ := (isOpen_nothing offset).extendWord hc (by simp) hextend
    refine ⟨hopen, fun rest more hmore => ?_⟩
    rw [List.append_assoc]
    refine h.accounts_of_finish hfinish ?_ (haccounts rest more hmore)
    simpa using hc.not_isNumeralChar
  · exact h.extendWord hc hp hextend

/-- All characters are accounted for. -/
theorem IsOpen.accounts (h : pending.IsOpen offset) {tokens : List Token}
    (hscan : Token.scanFrom pending offset rest = .ok tokens) :
    pending.Accounts offset rest tokens := by
  induction rest generalizing pending offset tokens with
  | nil =>
    have hempty : nothing.Accounts offset [] [] := ⟨⟨[], 0⟩, ⟨nofun, .nil⟩, rfl, rfl⟩
    simpa using h.accounts_of_finish hscan (by simp) hempty
  | cons c rest ih =>
    obtain ⟨⟨done, pending'⟩, hstep, hscan⟩ := exists_ok_of_bind hscan
    obtain ⟨more, hmore, hscan⟩ := exists_ok_of_bind hscan
    obtain ⟨hopen, haccounts⟩ := h.step hstep
    cases hscan
    exact haccounts rest more (ih hopen hmore)

end Pending

/-- **What is scanned has a layout**, and its tokens are those of the layout. -/
theorem Layout.exists_of_scanFrom {offset : Nat} {text : List Char} {tokens : List Token}
    (h : Token.scanFrom .nothing offset text = .ok tokens) :
    ∃ layout : Layout, layout.IsLexical ∧ layout.chars = text ∧ layout.tokens offset = tokens :=
  (Pending.isOpen_nothing offset).accounts h

end Fluxion
