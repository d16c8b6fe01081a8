import Fluxion.Json.Lexeme
import Fluxion.Json.Writing
import Fluxion.Proofs.Binary64.Canonical

/-!
# Lexemes that were written

Each lexeme of a JSON text is read to where its writing ends, and as what it was written for, whatever
comes behind it. A string ends at the first quote that is not escaped, and every piece in it is undone by
its own way of escaping (`Json.stringBody?_flatMap_write`). A number has no mark at its end: it ends where
it ended alone if what follows cannot go on with a number (`Json.number?_append`), and between values
that is so, as an array or object goes on with a comma or a closing bracket.
-/

namespace Fluxion.Json

/-! ### Strings -/

/-- A half of a pair is a code unit from `D800` to `DFFF`; every character is proper. -/
def Piece.IsProper : Piece → Prop
  | .char _ => True
  | .half unit => isLeadingHalf unit = true ∨ isTrailingHalf unit = true

section Strings

variable {text rest : List Char} {content : List Piece}

theorem hexDigit?_digitChar {d : Nat} (h : d < 16) : hexDigit? (Nat.digitChar d) = some d := by
  revert d
  decide

/-- Four hexadecimal digits are read as the code unit that they were written for. -/
theorem stringBody?_hexUnit {unit : Nat} (hunit : unit < 0x10000)
    (h : stringBody? text = some (content, rest)) :
    stringBody? ('\\' :: 'u' :: hexUnit unit ++ text) = some (.ofUnit unit :: content, rest) := by
  have hread : unit? (Nat.digitChar (unit / 0x1000)) (Nat.digitChar (unit / 0x100 % 16))
      (Nat.digitChar (unit / 0x10 % 16)) (Nat.digitChar (unit % 16)) = some unit := by
    rw [unit?, hexDigit?_digitChar (by omega), hexDigit?_digitChar (Nat.mod_lt _ (by decide)),
      hexDigit?_digitChar (Nat.mod_lt _ (by decide)), hexDigit?_digitChar (Nat.mod_lt _ (by decide))]
    exact congrArg some (by omega)
  simp only [hexUnit, List.map_cons, List.map_nil, List.cons_append, List.nil_append, stringBody?,
    hread, h]

theorem stringBody?_unescape {c e : Char} (hu : c ≠ 'u') (hc : unescape? c = some e)
    (h : stringBody? text = some (content, rest)) :
    stringBody? ('\\' :: c :: text) = some (.char e :: content, rest) := by
  rw [stringBody?, hc, h]
  rintro _ _ _ _ _ rfl
  exact absurd rfl hu

theorem stringBody?_cons {c : Char} (hquote : c ≠ '"') (hbackslash : c ≠ '\\')
    (hcontrol : ¬ c.toNat < 0x20) (h : stringBody? text = some (content, rest)) :
    stringBody? (c :: text) = some (.char c :: content, rest) := by
  rw [stringBody?, if_neg (by simp [hbackslash, hcontrol]), h]
  · exact hquote
  · rintro _ _ _ _ _ rfl
    exact absurd rfl hbackslash
  · rintro _ _ rfl
    exact absurd rfl hbackslash

/-- A character is escaped by two characters, by its code, or not at all. -/
theorem escape_cases (c : Char) :
    (∃ e, escape c = ['\\', e] ∧ e ≠ 'u' ∧ unescape? e = some c) ∨
    (c.toNat < 0x20 ∧ escape c = '\\' :: 'u' :: hexUnit c.toNat) ∨
    (c ≠ '"' ∧ c ≠ '\\' ∧ ¬ c.toNat < 0x20 ∧ escape c = [c]) := by
  unfold escape
  split_ifs with hquote hbackslash _ _ _ _ _ hcontrol
  iterate 7
    · subst c
      exact .inl ⟨_, rfl, by decide, rfl⟩
  · exact .inr (.inl ⟨hcontrol, rfl⟩)
  · exact .inr (.inr ⟨hquote, hbackslash, hcontrol, rfl⟩)

/-- **Every piece of a string is read as what it was written for.** -/
theorem stringBody?_write {piece : Piece} (hp : piece.IsProper)
    (h : stringBody? text = some (content, rest)) :
    stringBody? (piece.write ++ text) = some (piece :: content, rest) := by
  cases piece with
  | char c =>
    rw [Piece.write]
    obtain ⟨e, hescape, hu, he⟩ | ⟨hcontrol, hescape⟩ | ⟨hquote, hbackslash, hcontrol, hescape⟩ :=
      escape_cases c
    · rw [hescape]
      exact stringBody?_unescape hu he h
    · have hhalf : (isLeadingHalf c.toNat || isTrailingHalf c.toNat) = false := by
        simp only [isLeadingHalf, isTrailingHalf, Bool.or_eq_false_iff, Bool.and_eq_false_iff,
          decide_eq_false_iff_not]
        omega
      have hunit : Piece.ofUnit c.toNat = .char c := by
        rw [Piece.ofUnit, hhalf, if_neg Bool.false_ne_true, Char.ofNat_toNat]
      rw [hescape, stringBody?_hexUnit (by omega) h, hunit]
    · rw [hescape]
      exact stringBody?_cons hquote hbackslash hcontrol h
  | half unit =>
    rw [Piece.IsProper, ← Bool.or_eq_true] at hp
    have hlt : unit < 0x10000 := by
      simp only [isLeadingHalf, isTrailingHalf, Bool.or_eq_true, Bool.and_eq_true,
        decide_eq_true_eq] at hp
      omega
    have hunit : Piece.ofUnit unit = .half unit := if_pos hp
    rw [Piece.write, stringBody?_hexUnit hlt h, hunit]

/-- **A string is read as what was written of it.** -/
theorem stringBody?_flatMap_write (hc : ∀ piece ∈ content, piece.IsProper) (rest : List Char) :
    stringBody? (content.flatMap Piece.write ++ '"' :: rest) = some (content, rest) := by
  induction content with
  | nil => rfl
  | cons piece content ih =>
    rw [List.forall_mem_cons] at hc
    rw [List.flatMap_cons, List.append_assoc]
    exact stringBody?_write hc.1 (ih hc.2)

end Strings

/-! ### Numbers -/

/-- A number that stands before the text does not go on in it: the text begins with no digit, no point and
no letter of an exponent. -/
def EndsNumber (text : List Char) : Prop :=
  ∀ c ∈ text.head?, c.isDigit = false ∧ c ≠ '.' ∧ c ≠ 'e' ∧ c ≠ 'E'

section Numbers

variable {text tail rest part : List Char}

theorem takeWhile_append_of_endsNumber (hrest : EndsNumber rest) (text : List Char) :
    (text ++ rest).takeWhile Char.isDigit = text.takeWhile Char.isDigit ∧
      (text ++ rest).dropWhile Char.isDigit = text.dropWhile Char.isDigit ++ rest := by
  induction text with
  | nil =>
    cases rest with
    | nil => exact ⟨rfl, rfl⟩
    | cons c rest => simp [(hrest c rfl).1]
  | cons c text ih => by_cases hc : c.isDigit = true <;> simp [hc, ih]

theorem digits?_append (h : digits? text = some (part, tail)) (hrest : EndsNumber rest) :
    digits? (text ++ rest) = some (part, tail ++ rest) := by
  obtain ⟨htake, hdrop⟩ := takeWhile_append_of_endsNumber hrest text
  rw [digits?] at h ⊢
  split_ifs at h with hnone
  obtain ⟨rfl, rfl⟩ := Prod.mk.inj (Option.some.inj h)
  rw [htake, hdrop, if_neg hnone]

theorem whole?_append (h : whole? text = some (part, tail)) (hrest : EndsNumber rest) :
    whole? (text ++ rest) = some (part, tail ++ rest) := by
  rw [whole?, Option.filter_eq_some_iff] at h ⊢
  exact ⟨digits?_append h.1 hrest, h.2⟩

theorem fraction?_append (h : fraction? text = some (part, tail)) (hrest : EndsNumber rest) :
    fraction? (text ++ rest) = some (part, tail ++ rest) := by
  unfold fraction? at h
  split at h
  · next text =>
    obtain ⟨⟨digits, tail'⟩, hdigits, heq⟩ := Option.map_eq_some_iff.mp h
    obtain ⟨rfl, rfl⟩ := Prod.mk.inj heq
    rw [List.cons_append, fraction?, digits?_append hdigits hrest]
    rfl
  · next hpoint =>
    obtain ⟨rfl, rfl⟩ := Prod.mk.inj (Option.some.inj h)
    unfold fraction?
    split
    · next rest' heq =>
      cases text with
      | nil =>
        rw [List.nil_append] at heq
        exact absurd rfl (hrest '.' (by rw [heq]; rfl)).2.1
      | cons c text =>
        obtain ⟨rfl, -⟩ := List.cons.inj heq
        exact absurd rfl (hpoint text)
    · rfl

theorem sign_append (signs : List Char) (hne : text ≠ []) (rest : List Char) :
    sign signs (text ++ rest) = ((sign signs text).1, (sign signs text).2 ++ rest) := by
  cases text with
  | nil => exact absurd rfl hne
  | cons c text =>
    simp only [List.cons_append, sign]
    split_ifs <;> rfl

theorem power?_append (h : power? text = some (part, tail)) (hrest : EndsNumber rest) :
    power? (text ++ rest) = some (part, tail ++ rest) := by
  cases text with
  | nil =>
    obtain ⟨rfl, rfl⟩ := Prod.mk.inj (Option.some.inj h)
    cases rest with
    | nil => rfl
    | cons c rest =>
      obtain ⟨-, -, he, hE⟩ := hrest c rfl
      exact if_neg (not_or.mpr ⟨he, hE⟩)
  | cons c text =>
    simp only [List.cons_append, power?] at h ⊢
    split_ifs at h ⊢ with hc
    · obtain ⟨⟨digits, tail'⟩, hdigits, heq⟩ := Option.map_eq_some_iff.mp h
      obtain ⟨rfl, rfl⟩ := Prod.mk.inj heq
      have hne : text ≠ [] := by
        rintro rfl
        cases hdigits
      rw [sign_append _ hne, digits?_append hdigits hrest]
      rfl
    · obtain ⟨rfl, rfl⟩ := Prod.mk.inj (Option.some.inj h)
      rfl

/-- **A number ends where it ended alone.** -/
theorem number?_append (h : number? text = some (part, tail)) (hrest : EndsNumber rest) :
    number? (text ++ rest) = some (part, tail ++ rest) := by
  simp only [number?, Option.bind_eq_bind, Option.pure_def, Option.bind_eq_some_iff,
    Option.some.injEq, Prod.mk.injEq, Prod.exists] at h
  obtain ⟨whole, rest₁, hwhole, fraction, rest₂, hfraction, power, rest₃, hpower, rfl, rfl⟩ := h
  have hne : text ≠ [] := by
    rintro rfl
    cases hwhole
  simp only [number?, sign_append _ hne, whole?_append hwhole hrest, fraction?_append hfraction hrest,
    power?_append hpower hrest, Option.bind_eq_bind, Option.bind_some, Option.pure_def]

/-- What a number can begin with: a minus or a digit. -/
def numberHeads : List Char := ['-', '0', '1', '2', '3', '4', '5', '6', '7', '8', '9']

theorem mem_numberHeads {c : Char} (h : number? (c :: text) = some (part, tail)) :
    c ∈ numberHeads := by
  suffices hc : c = '-' ∨ c.isDigit = true from
    List.mem_cons.mpr (hc.imp_right mem_digits_of_isDigit)
  by_contra! hc
  simp only [number?, Option.bind_eq_bind, Option.bind_eq_some_iff] at h
  obtain ⟨⟨whole, tail'⟩, hwhole, -⟩ := h
  have hdigits := (Option.filter_eq_some_iff.mp hwhole).1
  rw [sign, if_neg (by simpa using hc.1), digits?, List.takeWhile_cons_of_neg hc.2] at hdigits
  cases hdigits

/-- The digits of a whole number are a number. -/
theorem number?_toDigits (n : Nat) :
    number? (Nat.toDigits 10 n) = some (Nat.toDigits 10 n, []) := by
  have hdigits : ∀ c ∈ Nat.toDigits 10 n, c.isDigit = true :=
    fun _ => Nat.isDigit_of_mem_toDigits (by decide) (by decide)
  have hsign : sign ['-'] (Nat.toDigits 10 n) = ([], Nat.toDigits 10 n) := by
    obtain ⟨c, rest, hcons⟩ := List.exists_cons_of_ne_nil (Nat.toDigits_ne_nil (b := 10) (n := n))
    rw [hcons] at hdigits ⊢
    have hc : c ≠ '-' := by
      rintro rfl
      exact absurd (hdigits '-' List.mem_cons_self) (by decide)
    rw [sign, if_neg (by simpa using hc)]
  have hwhole : whole? (Nat.toDigits 10 n) = some (Nat.toDigits 10 n, []) := by
    have htake := List.takeWhile_eq_self_iff.mpr hdigits
    have hdrop := List.dropWhile_eq_nil_iff.mpr hdigits
    have hzero : Nat.toDigits 10 n = ['0'] ∨ (Nat.toDigits 10 n).head? ≠ some '0' :=
      or_iff_not_imp_right.mpr fun h => Binary64.toDigits_eq_of_head? n (not_not.mp h)
    rw [whole?, digits?, htake, hdrop, if_neg Nat.toDigits_ne_nil, Option.filter_eq_some_iff]
    exact ⟨rfl, by simpa using hzero⟩
  simp only [number?, hsign, hwhole, fraction?, power?, Option.bind_eq_bind, Option.bind_some,
    Option.pure_def, List.nil_append, List.append_nil]

end Numbers

/-! ### Lexemes -/

section Lexemes

variable {c : Char} {text rest : List Char} {lexeme : Lexeme}

theorem lexeme?_string {content : List Piece} (hc : ∀ piece ∈ content, piece.IsProper)
    (rest : List Char) :
    lexeme? '"' (content.flatMap Piece.write ++ '"' :: rest) = some (.string content, rest) := by
  have hmark : marks.lookup '"' = none := rfl
  have hword : words.lookup '"' = none := rfl
  rw [lexeme?, hmark, hword, stringBody?_flatMap_write hc]
  rfl

/-- What begins a number begins no other lexeme. -/
theorem lexeme?_number (h : number? (c :: text) = some (c :: text, [])) (hrest : EndsNumber rest) :
    lexeme? c (text ++ rest) = some (.scalar (.number (c :: text)), rest) := by
  have hheads : numberHeads.all
      (fun d => (marks.lookup d).isNone && (words.lookup d).isNone && d ≠ '"') = true := rfl
  have hc := List.all_eq_true.mp hheads c (mem_numberHeads h)
  simp only [Bool.and_eq_true, Option.isNone_iff_eq_none, decide_eq_true_eq] at hc
  obtain ⟨⟨hmark, hword⟩, hquote⟩ := hc
  rw [lexeme?, hmark, hword, if_neg hquote, ← List.cons_append, number?_append h hrest]
  rfl

/-- A lexeme that begins a text comes before the lexemes of the rest. -/
theorem lexemes?_cons (hblank : isBlank c = false) (h : lexeme? c text = some (lexeme, rest)) :
    lexemes? (c :: text) = (lexemes? rest).map (lexeme :: ·) := by
  rw [lexemes?, hblank, if_neg Bool.false_ne_true]
  split
  · next lexeme' rest' h' =>
    obtain ⟨rfl, rfl⟩ := Prod.mk.inj (Option.some.inj (h.symm.trans h'))
    rfl
  · next h' => exact absurd (h.symm.trans h') (by simp)

end Lexemes

end Fluxion.Json
