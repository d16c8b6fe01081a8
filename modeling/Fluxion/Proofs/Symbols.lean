import Fluxion.Formula.Printed
import Fluxion.Proofs.Binary64.Whole
import Fluxion.Proofs.Grammar
import Fluxion.Proofs.Scanning

/-!
# Scanning what is printed

The symbols of a printed formula are spelled out one after the other, and only operators have spaces
around them. That scanning finds the same symbols again needs that no keyword begins another one, so
that each is a token as soon as its last character is read, and that no two numerals stand side by
side. Then the scanned tokens are, for the grammar, the symbols (`Token.scanFrom_symbols`), and what
the symbols spell is read (`Formula.ofText_symbols`).
-/

namespace Fluxion

/-! ### Keywords -/

theorem isWordChar_of_mem_keywords {entry : List Char × Token.Kind} (h : entry ∈ keywords)
    {c : Char} (hc : c ∈ entry.1) : IsWordChar c := by
  have hall : keywords.all fun entry =>
      entry.1.all fun c => c ≠ ' ' && c.isDigit = false && c ≠ '.' := by decide
  have := List.all_eq_true.mp (List.all_eq_true.mp hall entry h) c hc
  simpa [IsWordChar, and_assoc] using this

theorem utf8Size_of_mem_keywords {entry : List Char × Token.Kind} (h : entry ∈ keywords)
    {c : Char} (hc : c ∈ entry.1) : c.utf8Size = 1 := by
  have hall : keywords.all fun entry => entry.1.all fun c => c.utf8Size = 1 := by decide
  simpa using List.all_eq_true.mp (List.all_eq_true.mp hall entry h) c hc

theorem ne_nil_of_mem_keywords : ∀ entry ∈ keywords, entry.1 ≠ [] := by
  decide

theorem kind_ne_numeral_of_mem_keywords : ∀ entry ∈ keywords, entry.2 ≠ .numeral := by
  decide

theorem keyword?_of_mem_keywords : ∀ entry ∈ keywords, keyword? entry.1 = some entry.2 := by
  decide

/-- No keyword begins another one. -/
theorem keyword?_eq_none {entry : List Char × Token.Kind} (h : entry ∈ keywords)
    {t r : List Char} (ht : t ≠ []) (hr : r ≠ []) (heq : entry.1 = t ++ r) : keyword? t = none := by
  have hall : ∀ entry ∈ keywords, ∀ i ∈ List.range entry.1.length, 0 < i →
      keyword? (entry.1.take i) = none := by decide
  have hlt : t.length < entry.1.length := by
    rw [heq, List.length_append]
    exact Nat.lt_add_of_pos_right (List.length_pos_of_ne_nil hr)
  have := hall entry h t.length (List.mem_range.mpr hlt) (List.length_pos_of_ne_nil ht)
  rwa [heq, List.take_left] at this

/-! ### Words -/

namespace Token

variable {c : Char}

/-- A keyword is a token as soon as it is complete. -/
theorem scanFrom_keyword {w : List Char} {kind : Token.Kind} (h : (w, kind) ∈ keywords)
    (offset : Nat) (rest : List Char) :
    scanFrom .nothing offset (w ++ rest) =
      (scanFrom .nothing (offset + w.length) rest).map
        (⟨kind, String.ofList w, ⟨offset, offset + w.length⟩⟩ :: ·) := by
  -- on the characters still to come, of which there is at least one
  have go (r : List Char) (hr : r ≠ []) : ∀ (pending : Pending) (o : Nat),
      (∀ start text, pending ≠ .numeral start text) → w = pending.text ++ r →
      pending.start o = offset → o + r.length = offset + w.length →
      scanFrom pending o (r ++ rest) =
        (scanFrom .nothing (offset + w.length) rest).map
          (⟨kind, String.ofList w, ⟨offset, offset + w.length⟩⟩ :: ·) := by
    induction r with
    | nil => exact absurd rfl hr
    | cons c r ih =>
      intro pending o hp hw hstart ho
      have hc : c ∈ w := by rw [hw]; simp
      have hsize := utf8Size_of_mem_keywords h hc
      have hstep : pending.step o c = .ok (pending.extendWord o c) :=
        Pending.step_word (isWordChar_of_mem_keywords h hc) hp
      rw [List.length_cons] at ho
      cases r with
      | nil =>
        have hkind : keyword? (pending.text ++ [c]) = some kind := by
          rw [← hw]
          exact keyword?_of_mem_keywords _ h
        rw [Pending.extendWord, hkind] at hstep
        simp only [hstart, hsize, ← hw] at hstep
        have ho' : o + 1 = offset + w.length := ho
        rw [List.singleton_append, scanFrom_cons hstep, hsize, ho']
        rfl
      | cons d r =>
        have hnone : keyword? (pending.text ++ [c]) = none :=
          keyword?_eq_none h (r := d :: r) (by simp) (by simp) (by rw [hw]; simp)
        rw [Pending.extendWord, hnone] at hstep
        rw [List.cons_append, scanFrom_cons hstep, hsize,
          ih (by simp) (.word (pending.start o) (pending.text ++ [c])) (o + 1) (by simp)
            (by rw [hw]; simp [Pending.text]) hstart (by omega), map_nil_append]
  exact go w (ne_nil_of_mem_keywords _ h) .nothing offset (by simp) (by simp [Pending.text]) rfl rfl

/-! ### Numerals -/

/-- Digits and points that spell a finite number. -/
structure IsNumeral (text : List Char) : Prop where
  chars : ∀ c ∈ text, IsNumeralChar c
  finite : (Binary64.ofList? text).any Binary64.isFinite = true

theorem IsNumeral.ne_nil {text : List Char} (h : IsNumeral text) : text ≠ [] := by
  rintro rfl
  exact absurd h.finite (by decide)

/-- Digits and points begin with no sign. -/
theorem IsNumeral.splitSign_eq {text : List Char} (h : IsNumeral text) :
    Decimal.splitSign text = (false, text) := by
  have hne {c : Char} (hc : ¬ IsNumeralChar c) : text.head? ≠ some c := fun hhead =>
    hc (h.chars c (List.mem_of_mem_head? hhead))
  exact Decimal.splitSign_of_head? (hne (by unfold IsNumeralChar; decide))
    (hne (by unfold IsNumeralChar; decide))

/-- A finite number without a sign is written as a numeral. -/
theorem isNumeral_toList {v : Binary64} (h : v.IsUnsigned) : IsNumeral v.toList where
  chars _ hc := h.isDigit_or_eq_of_mem_toList hc
  finite := by
    obtain ⟨w, hread, place, rfl⟩ := h.ofList?_toList
    rw [hread]
    rfl

theorem isNumeral_toDigits {n : Nat} (h : n < 0x20000000000000) : IsNumeral (Nat.toDigits 10 n) :=
  Binary64.toList_ofNat h ▸ isNumeral_toList (Binary64.isUnsigned_ofNat h)

/-- Digits and points continue a numeral. -/
theorem scanFrom_numeral_append {u : List Char} (hu : ∀ c ∈ u, IsNumeralChar c) (rest : List Char) :
    ∀ (pending : Pending) (o : Nat), (∀ c ∈ pending.text, IsNumeralChar c) → u ≠ [] →
      scanFrom pending o (u ++ rest) =
        scanFrom (.numeral (pending.start o) (pending.text ++ u)) (o + u.length) rest := by
  induction u with
  | nil => intro _ _ _ h; exact absurd rfl h
  | cons c u ih =>
    intro pending o hp _
    have hc : IsNumeralChar c := hu c (by simp)
    have halpha : pending.text.any Char.isAlpha = false :=
      List.any_eq_false.mpr fun d hd => by simp [(hp d hd).isAlpha_eq_false]
    have hdigit : (c.isDigit || decide (c = '.')) = true := by
      simpa [IsNumeralChar] using hc
    have hstep : pending.step o c = .ok ([], .numeral (pending.start o) (pending.text ++ [c])) := by
      simp only [Pending.step, hc.ne_space, halpha, hdigit, Bool.and_false, if_true, if_false,
        Bool.false_eq_true]
    rw [List.cons_append, scanFrom_cons hstep, map_nil_append, hc.utf8Size_eq]
    cases u with
    | nil => rfl
    | cons d u =>
      rw [ih (fun e he => hu e (by simp [he])) _ _ ?_ (by simp)]
      · simp only [Pending.text, Pending.start, List.append_assoc, List.singleton_append,
          List.length_cons]
        congr 1
        omega
      · intro e he
        rcases List.mem_append.mp he with he | he
        · exact hp e he
        · rw [List.mem_singleton.mp he]
          exact hc

/-- A numeral is a token when something else follows. -/
theorem scanFrom_numeral {text : List Char} (h : IsNumeral text) (offset : Nat) {rest : List Char}
    (hrest : ∀ c ∈ rest.head?, ¬ IsNumeralChar c) :
    scanFrom .nothing offset (text ++ rest) =
      (scanFrom .nothing (offset + text.length) rest).map
        (⟨.numeral, String.ofList text, ⟨offset, offset + text.length⟩⟩ :: ·) := by
  rw [scanFrom_numeral_append h.chars rest .nothing offset (by simp [Pending.text]) h.ne_nil]
  have hfinish : (Pending.numeral offset text).finish (offset + text.length) =
      .ok [⟨.numeral, String.ofList text, ⟨offset, offset + text.length⟩⟩] := by
    rw [Pending.finish, if_pos h.finite]
  cases rest with
  | nil => exact hfinish
  | cons c r =>
    have hc : ¬ IsNumeralChar c := hrest c rfl
    by_cases hspace : c = ' '
    · subst hspace
      have hstep : (Pending.numeral offset text).step (offset + text.length) ' ' = .ok
          ([⟨.numeral, String.ofList text, ⟨offset, offset + text.length⟩⟩], .nothing) := by
        rw [Pending.step, if_pos rfl, hfinish]
        rfl
      rw [scanFrom_space]
      exact scanFrom_cons hstep r
    · simp only [IsNumeralChar, not_or, Bool.not_eq_true] at hc
      obtain ⟨more, pending, hextend⟩ : ∃ more pending,
          Pending.nothing.extendWord (offset + text.length) c = (more, pending) := ⟨_, _, rfl⟩
      have hword : Pending.nothing.step (offset + text.length) c = .ok (more, pending) := by
        rw [Pending.step_word ⟨hspace, hc.1, hc.2⟩ (by simp), hextend]
      have hstep : (Pending.numeral offset text).step (offset + text.length) c = .ok
          (⟨.numeral, String.ofList text, ⟨offset, offset + text.length⟩⟩ :: more, pending) := by
        simp only [Pending.step, hspace, hc.1, hc.2, hfinish, hextend]
        rfl
      rw [scanFrom_cons hword]
      refine (scanFrom_cons hstep r).trans ?_
      cases scanFrom pending (offset + text.length + c.utf8Size) r <;> rfl

end Token

/-! ### Symbols -/

namespace Symbol

/-- The kind of token that a symbol is scanned as. -/
def kind : Symbol → Token.Kind
  | .numeral _ => .numeral
  | .var => .var
  | .constant c => .constant c
  | .function f => .function f
  | .minus => .operator .sub
  | .operator op => .operator op
  | .openBracket => .openBracket
  | .closeBracket => .closeBracket

/-- A token that a symbol is scanned as, but for where it stands. -/
def token (s : Symbol) : Token := ⟨s.kind, String.ofList s.spelling, .emptyAt 0⟩

/-- Only numerals begin as a numeral does. -/
theorem head_spelling {s : Symbol} (h : s.kind ≠ .numeral) :
    ∃ c rest, s.spelling = c :: rest ∧ ¬ Token.IsNumeralChar c := by
  unfold Token.IsNumeralChar
  cases s with
  | numeral text => exact absurd rfl h
  | var => exact ⟨'x', [], rfl, by decide⟩
  | minus => exact ⟨'-', [], rfl, by decide⟩
  | openBracket => exact ⟨'(', [], rfl, by decide⟩
  | closeBracket => exact ⟨')', [], rfl, by decide⟩
  | operator op => exact ⟨' ', [op.sign, ' '], rfl, by decide⟩
  | constant c => cases c <;> exact ⟨_, _, rfl, by decide⟩
  | function f => cases f <;> exact ⟨_, _, rfl, by decide⟩

/-- A symbol is scanned as its token, and nothing is left pending. -/
theorem scanFrom_spelling {s : Symbol} (hs : ∀ text, s = .numeral text → Token.IsNumeral text)
    {rest : List Char} (hrest : s.kind = .numeral → ∀ c ∈ rest.head?, ¬ Token.IsNumeralChar c)
    (offset : Nat) :
    ∃ (token : Token) (offset' : Nat), token.terminal = s.token.terminal ∧
      Token.scanFrom .nothing offset (s.spelling ++ rest) =
        (Token.scanFrom .nothing offset' rest).map (token :: ·) := by
  have keyword {s : Symbol} (h : (s.spelling, s.kind) ∈ keywords) :
      ∃ (token : Token) (offset' : Nat), token.terminal = s.token.terminal ∧
        Token.scanFrom .nothing offset (s.spelling ++ rest) =
          (Token.scanFrom .nothing offset' rest).map (token :: ·) :=
    ⟨⟨s.kind, String.ofList s.spelling, ⟨offset, offset + s.spelling.length⟩⟩, _, rfl,
      Token.scanFrom_keyword h offset rest⟩
  cases s with
  | numeral text =>
    exact ⟨⟨.numeral, String.ofList text, ⟨offset, offset + text.length⟩⟩, _, rfl,
      Token.scanFrom_numeral (hs text rfl) offset (hrest rfl)⟩
  | var | minus | openBracket | closeBracket => exact keyword (by decide)
  | constant c => exact keyword (by cases c <;> decide)
  | function f => exact keyword (by cases f <;> decide)
  | operator op =>
    have hop : ([op.sign], Token.Kind.operator op) ∈ keywords := by cases op <;> decide
    have hscan := Token.scanFrom_keyword hop (offset + 1) (' ' :: rest)
    rw [Token.scanFrom_space] at hscan
    exact ⟨⟨.operator op, String.ofList [op.sign], ⟨offset + 1, offset + 2⟩⟩, _, rfl,
      (Token.scanFrom_space offset (op.sign :: ' ' :: rest)).trans hscan⟩

end Symbol

/-- Symbols without two numerals side by side are scanned as their tokens. -/
theorem Token.scanFrom_symbols {symbols : List Symbol}
    (hn : ∀ text, .numeral text ∈ symbols → IsNumeral text)
    (hc : (symbols.map Symbol.token).IsChain fun t t' => t.kind = .numeral → t'.kind ≠ .numeral)
    (offset : Nat) :
    ∃ tokens, scanFrom .nothing offset (symbols.flatMap Symbol.spelling) = .ok tokens ∧
      tokens.map terminal = (symbols.map Symbol.token).map terminal := by
  induction symbols generalizing offset with
  | nil => exact ⟨[], rfl, rfl⟩
  | cons s symbols ih =>
    rw [List.map_cons, List.isChain_cons] at hc
    have hrest : s.kind = .numeral →
        ∀ c ∈ (symbols.flatMap Symbol.spelling).head?, ¬ IsNumeralChar c := by
      intro hk c hcs
      cases symbols with
      | nil => simp at hcs
      | cons s' symbols =>
        obtain ⟨d, r, hd, hnd⟩ := Symbol.head_spelling (hc.1 s'.token rfl hk)
        rw [List.flatMap_cons, hd] at hcs
        obtain rfl : d = c := by simpa using hcs
        exact hnd
    obtain ⟨token, offset', htoken, hscan⟩ :=
      Symbol.scanFrom_spelling (fun text h => hn text (by simp [h])) hrest offset
    obtain ⟨tokens, htokens, hterminals⟩ := ih (fun text h => hn text (by simp [h])) hc.2 offset'
    refine ⟨token :: tokens, ?_, ?_⟩
    · rw [List.flatMap_cons, hscan, htokens]
      rfl
    · rw [List.map_cons, List.map_cons, List.map_cons, htoken, hterminals]

/-- **What is printed can be read**: a text spelled by symbols that the grammar derives is read, as
the formula of the derivation. -/
theorem Formula.ofText_symbols {symbols : List Symbol} {a : Formula}
    (hn : ∀ text, .numeral text ∈ symbols → Token.IsNumeral text)
    (h : Spells 1 (symbols.map Symbol.token) a) :
    ofText (String.ofList (symbols.flatMap Symbol.spelling)) = .ok a := by
  have hnumerals : (symbols.map Symbol.token).IsChain
      fun t t' => t.kind = .numeral → t'.kind ≠ .numeral :=
    h.isChain.imp fun t t' hadjacent hk hk' => by simp [Token.Adjacent, hk, hk'] at hadjacent
  obtain ⟨tokens, hscan, hterminals⟩ := Token.scanFrom_symbols hn hnumerals 0
  simp only [ofText, Token.scan, String.toList_ofList, hscan]
  exact (h.of_terminals hterminals).ofTokens_eq

end Fluxion
