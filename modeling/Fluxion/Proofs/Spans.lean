import Fluxion.Proofs.Lexemes

/-!
# Where tokens stand

The tokens of a text stand one behind the other, each on its own bytes of the text, and what they
leave over are spaces (`Token.Covers`). All characters of keywords and numerals have one byte, so in a
text that is scanned bytes and characters are counted alike. Together with the layouts of
`Fluxion.Proofs.Lexemes` this says all that scanning does to a text that it accepts
(`Token.scan_eq_ok_iff`).
-/

namespace Fluxion

/-! ### Bytes -/

theorem size_utf8Encode (text : List Char) : text.utf8Encode.size = byteLength text := by
  induction text with
  | nil => rfl
  | cons c text ih =>
    rw [List.utf8Encode_cons, ByteArray.size_append, ih, List.utf8Encode_singleton,
      List.size_toByteArray, String.length_utf8EncodeChar]
    rfl

/-- A part of a text stands on its own bytes. -/
theorem extract_toUTF8 {s : String} {before text after : List Char}
    (h : s.toList = before ++ text ++ after) :
    s.toUTF8.extract (byteLength before) (byteLength before + byteLength text) =
      (String.ofList text).toUTF8 := by
  have hs : s.toUTF8 = before.utf8Encode ++ text.utf8Encode ++ after.utf8Encode := by
    rw [String.toUTF8_eq_toByteArray, ← String.ofList_toList (s := s), h, String.toByteArray_ofList,
      List.utf8Encode_append, List.utf8Encode_append]
  have hsize : (before.utf8Encode ++ text.utf8Encode).size = byteLength before + byteLength text := by
    rw [ByteArray.size_append, size_utf8Encode, size_utf8Encode]
  rw [hs, String.toUTF8_eq_toByteArray, String.toByteArray_ofList, ← hsize,
    ByteArray.extract_append_size_left]
  refine ByteArray.extract_append_eq_right (size_utf8Encode before).symm ?_
  rw [hsize, size_utf8Encode, size_utf8Encode]

/-- Where each character has one byte, the bytes are those of the characters. -/
theorem getElem_toUTF8 {s : String} (hs : ∀ c ∈ s.toList, c.utf8Size = 1) {i : Nat}
    (h : i < s.toUTF8.size) (hi : i < s.toList.length) :
    s.toUTF8[i] = (s.toList[i]).val.toUInt8 := by
  have hbytes : s.toUTF8 = (s.toList.map fun c => c.val.toUInt8).toByteArray := by
    rw [String.toUTF8_eq_toByteArray, ← String.utf8Encode_toList, List.utf8Encode,
      List.map_eq_flatMap]
    exact congrArg _ (List.flatMap_congr fun c hc => String.utf8EncodeChar_eq_singleton (hs c hc))
  simp only [hbytes, List.getElem_toByteArray, List.getElem_map]

/-! ### Tokens of layouts -/

namespace Lexeme

variable {l : Lexeme} {ls : List Lexeme} {t : Token} {offset : Nat}

theorem IsLexical.text_ne_nil (h : l.IsLexical) : l.text ≠ [] := by
  rcases h with hkeyword | ⟨-, hnumeral⟩
  · exact ne_nil_of_mem_keywords _ hkeyword
  · exact hnumeral.ne_nil

theorem IsLexical.utf8Size_eq (h : l.IsLexical) {c : Char} (hc : c ∈ l.chars) : c.utf8Size = 1 := by
  rcases List.mem_append.mp hc with hspace | htext
  · obtain rfl := List.eq_of_mem_replicate hspace
    rfl
  · rcases h with hkeyword | ⟨-, hnumeral⟩
    · exact utf8Size_of_mem_keywords hkeyword htext
    · exact (hnumeral.chars c htext).utf8Size_eq

/-- The text of a token stands among the characters where its span says. -/
theorem exists_split_of_mem_tokens (h : t ∈ tokens offset ls) :
    ∃ l ∈ ls, t.kind = l.kind ∧ t.text = String.ofList l.text ∧
      ∃ before after, ls.flatMap chars = before ++ l.text ++ after ∧
        t.span = ⟨offset + before.length, offset + before.length + l.text.length⟩ := by
  induction ls generalizing offset with
  | nil => cases h
  | cons l ls ih =>
    rcases List.mem_cons.mp h with rfl | h
    · refine ⟨l, by simp, rfl, rfl, List.replicate l.spaces ' ', ls.flatMap chars, rfl, ?_⟩
      rw [List.length_replicate]
      rfl
    · obtain ⟨l', hl', hkind, htext, before, after, hchars, hspan⟩ := ih h
      refine ⟨l', List.mem_cons_of_mem _ hl', hkind, htext, l.chars ++ before, after, ?_, ?_⟩
      · rw [List.flatMap_cons, hchars]
        simp
      · rw [hspan, List.length_append, ← l.length_chars, Nat.add_assoc offset]

theorem le_start_of_mem_tokens (h : t ∈ tokens offset ls) : offset ≤ t.span.start := by
  obtain ⟨_, -, -, -, before, -, -, hspan⟩ := exists_split_of_mem_tokens h
  rw [hspan]
  exact Nat.le_add_right _ _

/-- Tokens stand one behind the other. -/
theorem pairwise_tokens (offset : Nat) (ls : List Lexeme) :
    (tokens offset ls).Pairwise fun t t' => t.span.stop ≤ t'.span.start := by
  induction ls generalizing offset with
  | nil => exact .nil
  | cons l ls ih => exact .cons (fun _ => le_start_of_mem_tokens) (ih _)

/-- Outside of all tokens there are spaces. -/
theorem eq_space_of_outside {trailing i : Nat} {c : Char}
    (hout : ∀ t ∈ tokens offset ls, offset + i < t.span.start ∨ t.span.stop ≤ offset + i)
    (hc : (ls.flatMap chars ++ List.replicate trailing ' ')[i]? = some c) : c = ' ' := by
  induction ls generalizing offset i with
  | nil => exact List.eq_of_mem_replicate (List.mem_of_getElem? hc)
  | cons l ls ih =>
    obtain ⟨hhead, htail⟩ := List.forall_mem_cons.mp hout
    have hlength := l.length_chars offset
    rw [List.flatMap_cons, List.append_assoc] at hc
    rcases hhead with hbefore | hbehind
    · have hi : i < (List.replicate l.spaces ' ').length := by
        rw [List.length_replicate]
        exact Nat.lt_of_add_lt_add_left hbefore
      rw [chars, List.append_assoc, List.getElem?_append_left hi] at hc
      exact List.eq_of_mem_replicate (List.mem_of_getElem? hc)
    · have hi : l.chars.length ≤ i := by omega
      rw [List.getElem?_append_right hi] at hc
      have hout' : ∀ t ∈ tokens (l.token offset).span.stop ls,
          (l.token offset).span.stop + (i - l.chars.length) < t.span.start ∨
            t.span.stop ≤ (l.token offset).span.stop + (i - l.chars.length) := by
        intro t ht
        have := htail t ht
        omega
      exact ih hout' hc

end Lexeme

theorem Layout.IsLexical.utf8Size_eq {layout : Layout} (h : layout.IsLexical) {c : Char}
    (hc : c ∈ layout.chars) : c.utf8Size = 1 := by
  rcases List.mem_append.mp hc with hlexeme | hspace
  · obtain ⟨l, hl, hc⟩ := List.mem_flatMap.mp hlexeme
    exact (h.lexemes l hl).utf8Size_eq hc
  · obtain rfl := List.eq_of_mem_replicate hspace
    rfl

/-! ### Points in numerals -/

theorem Decimal.count_point_eq_zero {text : List Char} (h : ∀ c ∈ text, c.isDigit = true) :
    text.count '.' = 0 :=
  List.count_eq_zero.mpr fun hpoint => absurd (h '.' hpoint) (by decide)

/-- A power of ten begins with a letter, which is no character of a numeral. -/
theorem Decimal.eq_nil_of_exponent? {text : List Char} (hchars : ∀ c ∈ text, Token.IsNumeralChar c)
    (h : (exponent? text).isSome = true) : text = [] := by
  cases text with
  | nil => rfl
  | cons c text =>
    have hc : Token.IsNumeralChar c := hchars c (by simp)
    have hletter : ¬ (c = 'e' ∨ c = 'E') := by
      simpa using hc.of_all (p := fun c => !(c = 'e' ∨ c = 'E')) (by decide)
    rw [exponent?, if_neg hletter] at h
    cases h

theorem Decimal.isSome_exponent? {text : List Char} (h : (ofList? text).isSome = true) :
    (exponent? (splitFraction (text.dropWhile Char.isDigit)).2).isSome = true := by
  unfold ofList? at h
  dsimp only at h
  split_ifs at h
  · cases h
  · rwa [Option.isSome_map] at h

/-- A numeral holds one point at most. -/
theorem Token.IsNumeral.count_point_le {text : List Char} (h : IsNumeral text) :
    text.count '.' ≤ 1 := by
  have hdecimal : (Decimal.ofList? text).isSome = true := by
    have hfinite := h.finite
    unfold Binary64.ofList? at hfinite
    simp only [h.splitSign_eq] at hfinite
    split_ifs at hfinite
    · cases hfinite
    · cases hfinite
    · simpa using Option.isSome_of_any hfinite
  have hexponent := Decimal.isSome_exponent? hdecimal
  have hdigits : ∀ c ∈ text.takeWhile Char.isDigit, c.isDigit = true := fun c hc =>
    List.mem_takeWhile_imp hc
  have hchars : ∀ c ∈ text.dropWhile Char.isDigit, IsNumeralChar c := fun c hc =>
    h.chars c ((List.dropWhile_sublist _).subset hc)
  rw [← List.takeWhile_append_dropWhile (p := Char.isDigit) (l := text), List.count_append,
    Decimal.count_point_eq_zero hdigits, Nat.zero_add]
  unfold Decimal.splitFraction at hexponent
  split at hexponent
  · -- behind the point all is digits
    next rest hrest =>
    rw [hrest] at hchars ⊢
    have hnil := Decimal.eq_nil_of_exponent? (fun c hc =>
      hchars c (List.mem_cons_of_mem _ ((List.dropWhile_sublist _).subset hc))) hexponent
    have hfraction : ∀ c ∈ rest, c.isDigit = true := List.dropWhile_eq_nil_iff.mp hnil
    rw [List.count_cons, Decimal.count_point_eq_zero hfraction]
    decide
  · rw [Decimal.eq_nil_of_exponent? hchars hexponent]
    decide

/-! ### Texts -/

/-- The tokens stand one behind the other, each on its own bytes, and between them are spaces. -/
structure Token.Covers (tokens : List Token) (s : String) : Prop where
  /-- No token is empty. -/
  start_lt_stop : ∀ t ∈ tokens, t.span.start < t.span.stop
  /-- Each token begins where the one before has ended, or later. -/
  ordered : tokens.Pairwise fun t t' => t.span.stop ≤ t'.span.start
  /-- No token goes beyond the text. -/
  stop_le : ∀ t ∈ tokens, t.span.stop ≤ s.toUTF8.size
  /-- The text of a token is what stands there. -/
  extract : ∀ t ∈ tokens, s.toUTF8.extract t.span.start t.span.stop = t.text.toUTF8
  /-- The bytes outside of all tokens are spaces. -/
  space : ∀ (i : Nat) (h : i < s.toUTF8.size),
    (∀ t ∈ tokens, i < t.span.start ∨ t.span.stop ≤ i) → s.toUTF8[i] = 0x20

theorem size_toUTF8 (s : String) : s.toUTF8.size = byteLength s.toList := by
  rw [String.toUTF8_eq_toByteArray, ← String.utf8Encode_toList, size_utf8Encode]

/-- The tokens of a layout cover its text. -/
theorem Layout.IsLexical.covers {layout : Layout} (h : layout.IsLexical) {s : String}
    (hs : layout.chars = s.toList) : Token.Covers (layout.tokens 0) s := by
  have hone (text : List Char) (htext : text ⊆ s.toList) : byteLength text = text.length :=
    byteLength_eq_length fun c hc => h.utf8Size_eq (hs ▸ htext hc)
  have hsplit {t : Token} (ht : t ∈ layout.tokens 0) : ∃ before text after,
      text ≠ [] ∧ s.toList = before ++ text ++ after ∧ t.text = String.ofList text ∧
        t.span = ⟨byteLength before, byteLength before + byteLength text⟩ := by
    obtain ⟨l, hl, -, htext, before, after, hchars, hspan⟩ := Lexeme.exists_split_of_mem_tokens ht
    have hlist : s.toList = before ++ l.text ++ (after ++ List.replicate layout.trailing ' ') := by
      rw [← hs, Layout.chars, hchars, List.append_assoc]
    refine ⟨before, l.text, _, (h.lexemes l hl).text_ne_nil, hlist, htext, ?_⟩
    rw [hspan, hone before (by simp [hlist]), hone l.text (by simp [hlist]),
      Nat.zero_add]
  refine ⟨fun t ht => ?_, Lexeme.pairwise_tokens 0 _, fun t ht => ?_, fun t ht => ?_,
    fun i hi hout => ?_⟩
  · obtain ⟨before, text, after, hne, hlist, -, hspan⟩ := hsplit ht
    have := List.length_pos_of_ne_nil hne
    rw [hspan, hone text (by simp [hlist])]
    exact Nat.lt_add_of_pos_right this
  · obtain ⟨before, text, after, -, hlist, -, hspan⟩ := hsplit ht
    rw [hspan, size_toUTF8, hlist, byteLength_append, byteLength_append]
    exact Nat.le_add_right _ _
  · obtain ⟨before, text, after, -, hlist, htext, hspan⟩ := hsplit ht
    rw [hspan, htext]
    exact extract_toUTF8 hlist
  · have hlength : i < s.toList.length := by
      rwa [size_toUTF8, hone _ (List.Subset.refl _)] at hi
    have hchar : layout.chars[i]? = some s.toList[i] := by
      rw [hs, List.getElem?_eq_getElem hlength]
    have hout' : ∀ t ∈ Lexeme.tokens 0 layout.lexemes,
        0 + i < t.span.start ∨ t.span.stop ≤ 0 + i := by
      rwa [Nat.zero_add]
    have hspace : s.toList[i] = ' ' := Lexeme.eq_space_of_outside hout' hchar
    rw [getElem_toUTF8 (fun c hc => h.utf8Size_eq (hs ▸ hc)) hi hlength, hspace]
    rfl

/-- **Scanning accepts the texts that have a layout, and loses nothing of them**: the layout is the
only one, the tokens are its lexemes, they cover the text, and their numerals are digits with one
point at most. -/
theorem Token.scan_eq_ok_iff (s : String) :
    (∀ tokens, scan s = .ok tokens ↔
      ∃ layout : Layout, layout.IsLexical ∧ layout.chars = s.toList ∧ layout.tokens 0 = tokens) ∧
    (∀ layout layout' : Layout, layout.IsLexical → layout'.IsLexical →
      layout.chars = s.toList → layout'.chars = s.toList → layout = layout') ∧
    ∀ tokens, scan s = .ok tokens → Covers tokens s ∧ ∀ t ∈ tokens, t.kind = .numeral →
      (∀ c ∈ t.text.toList, c.isDigit = true ∨ c = '.') ∧ t.text.toList.count '.' ≤ 1 := by
  have hlayout {tokens : List Token} (h : scan s = .ok tokens) := Layout.exists_of_scanFrom h
  refine ⟨fun tokens => ⟨hlayout, ?_⟩, ?_, fun tokens h => ?_⟩
  · rintro ⟨layout, hlexical, hchars, rfl⟩
    rw [scan, ← hchars]
    exact hlexical.scanFrom_eq 0
  · intro layout layout' hlexical hlexical' hchars hchars'
    exact hlexical.unique hlexical' (hchars.trans hchars'.symm)
  · obtain ⟨layout, hlexical, hchars, rfl⟩ := hlayout h
    refine ⟨hlexical.covers hchars, fun t ht hkind => ?_⟩
    obtain ⟨l, hl, hkind', htext, -⟩ := Lexeme.exists_split_of_mem_tokens ht
    have hnumeral : IsNumeral l.text :=
      ((hlexical.lexemes l hl).resolve_left fun hkeyword =>
        kind_ne_numeral_of_mem_keywords _ hkeyword (hkind'.symm.trans hkind)).2
    rw [htext, String.toList_ofList]
    exact ⟨hnumeral.chars, hnumeral.count_point_le⟩

/-- Numbers need a space between them, words do not. -/
theorem Token.scan_eq_ok_iff_numerals :
    let layout : Layout := ⟨[⟨0, .numeral, ['2']⟩, ⟨1, .numeral, ['.', '5']⟩,
      ⟨0, .function .sin, ['s', 'i', 'n']⟩, ⟨0, .var, ['x']⟩], 1⟩
    layout.IsLexical ∧ layout.chars = "2 .5sinx ".toList ∧
      scan "2 .5sinx " = .ok (layout.tokens 0) ∧ Covers (layout.tokens 0) "2 .5sinx " := by
  intro layout
  have hlexical : layout.IsLexical := by
    refine ⟨?_, ?_⟩
    · have two : IsNumeral ['2'] := isNumeral_toDigits (n := 2) (by decide)
      have half : IsNumeral ['.', '5'] :=
        ⟨List.forall_mem_cons.mpr ⟨.inr rfl, List.forall_mem_singleton.mpr (.inl rfl)⟩,
          by decide +kernel⟩
      simp only [layout, List.forall_mem_cons]
      exact ⟨.inr ⟨rfl, two⟩, .inr ⟨rfl, half⟩, .inl (by decide), .inl (by decide), nofun⟩
    · simp [layout, Lexeme.Apart]
  have hchars : layout.chars = "2 .5sinx ".toList := by rfl
  have hscan : scan "2 .5sinx " = .ok (layout.tokens 0) :=
    ((scan_eq_ok_iff "2 .5sinx ").1 _).mpr ⟨layout, hlexical, hchars, rfl⟩
  exact ⟨hlexical, hchars, hscan, ((scan_eq_ok_iff "2 .5sinx ").2.2 _ hscan).1⟩

end Fluxion
