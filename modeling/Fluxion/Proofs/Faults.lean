import Fluxion.Proofs.Spans

/-!
# Where scanning fails

An error of the scanner holds a piece of the text and says where it stands. That piece is the first
bad one: all the text in front of it is scanned by itself (`ScanError.PointsInto`). And the piece alone
tells which error it is (`ScanError.refusing`): a digit at its end and a letter further in front, or
else any digit or point in it, or else none.

What is kept from character to character is that the pending text stands behind a text that is scanned
by itself (`Pending.Behind`), and that it is a word or looks like a numeral (`Pending.IsPiece`). How it
came to be pending is forgotten.
-/

namespace Fluxion

/-! ### Errors -/

namespace ScanError

/-- The piece of text that is refused. -/
def text : ScanError → String
  | .digitInWord text _ | .unknownWord text _ | .badNumeral text _ => text

/-- Where it stands. -/
def span : ScanError → Span
  | .digitInWord _ span | .unknownWord _ span | .badNumeral _ span => span

/-- Whether a text ends in a digit and holds a letter in front of it. -/
def hasDigitInWord (text : List Char) : Bool :=
  text.getLast?.any Char.isDigit && text.dropLast.any Char.isAlpha

/-- Whether a text holds a digit or a point. -/
def hasNumeralChar (text : List Char) : Bool := text.any fun c => c.isDigit || c = '.'

/-- The error that refuses a piece of text, as its characters tell. -/
def refusing (text : String) (span : Span) : ScanError :=
  if hasDigitInWord text.toList then .digitInWord text span
  else if hasNumeralChar text.toList then .badNumeral text span
  else .unknownWord text span

/-- An error points at the first bad piece of a text, and tells what is bad about it. -/
structure PointsInto (e : ScanError) (s : String) : Prop where
  /-- The piece is not empty. -/
  start_lt_stop : e.span.start < e.span.stop
  /-- It does not go beyond the text. -/
  stop_le : e.span.stop ≤ s.toUTF8.size
  /-- It begins and ends between characters, it is what stands there, and the text in front of it has
  no error. -/
  exists_split : ∃ before after : String, s = before ++ e.text ++ after ∧
    before.toUTF8.size = e.span.start ∧ (before ++ e.text).toUTF8.size = e.span.stop ∧
    ∃ tokens, Token.scan before = .ok tokens
  /-- In bytes, too, it is what stands there. -/
  extract : s.toUTF8.extract e.span.start e.span.stop = e.text.toUTF8
  /-- There is no space in it. -/
  space_notMem : ' ' ∉ e.text.toList
  /-- The kind of the error is that of the piece. -/
  eq_refusing : e = refusing e.text e.span

variable {text : List Char} {c : Char}

theorem hasNumeralChar_iff : hasNumeralChar text = true ↔ ∃ c ∈ text, Token.IsNumeralChar c := by
  simp [hasNumeralChar, Token.IsNumeralChar]

theorem hasDigitInWord_append_singleton :
    hasDigitInWord (text ++ [c]) = (c.isDigit && text.any Char.isAlpha) := by
  simp [hasDigitInWord]

/-- A text that ends in a digit holds one. -/
theorem hasNumeralChar_of_hasDigitInWord (h : hasDigitInWord text = true) :
    hasNumeralChar text = true := by
  rw [hasDigitInWord, Bool.and_eq_true, Option.any_eq_true] at h
  obtain ⟨⟨c, hc, hdigit⟩, -⟩ := h
  exact hasNumeralChar_iff.mpr ⟨c, List.mem_of_getLast? hc, .inl hdigit⟩

theorem text_refusing (text : String) (span : Span) : (refusing text span).text = text := by
  unfold refusing
  split_ifs <;> rfl

theorem span_refusing (text : String) (span : Span) : (refusing text span).span = span := by
  unfold refusing
  split_ifs <;> rfl

theorem refusing_of_hasDigitInWord (h : hasDigitInWord text = true) (span : Span) :
    refusing (String.ofList text) span = .digitInWord (String.ofList text) span := by
  rw [refusing, String.toList_ofList, if_pos h]

theorem refusing_of_hasNumeralChar (h : hasNumeralChar text = true)
    (hdigit : hasDigitInWord text = false) (span : Span) :
    refusing (String.ofList text) span = .badNumeral (String.ofList text) span := by
  rw [refusing, String.toList_ofList, if_neg (ne_true_of_eq_false hdigit), if_pos h]

theorem refusing_of_isWordChar (h : ∀ c ∈ text, IsWordChar c) (span : Span) :
    refusing (String.ofList text) span = .unknownWord (String.ofList text) span := by
  have hnumeral : ¬ hasNumeralChar text = true := by
    rw [hasNumeralChar_iff]
    rintro ⟨c, hc, hnumeral⟩
    exact (h c hc).not_isNumeralChar hnumeral
  rw [refusing, String.toList_ofList, if_neg (mt hasNumeralChar_of_hasDigitInWord hnumeral),
    if_neg hnumeral]

/-- A piece of a text, behind one that is scanned by itself, is pointed at. -/
theorem pointsInto_refusing {s : String} {before after : List Char}
    (hs : s.toList = before ++ text ++ after) (hne : text ≠ []) (hspace : ' ' ∉ text)
    (hbefore : ∃ tokens, Token.scan (String.ofList before) = .ok tokens) :
    (refusing (String.ofList text)
      ⟨byteLength before, byteLength (before ++ text)⟩).PointsInto s := by
  have hpos := byteLength_pos hne
  constructor <;> simp only [text_refusing, span_refusing, String.toList_ofList]
  · rw [byteLength_append]
    exact Nat.lt_add_of_pos_right hpos
  · rw [size_toUTF8, hs, byteLength_append (before ++ text)]
    exact Nat.le_add_right _ _
  · refine ⟨String.ofList before, String.ofList after, ?_, ?_, ?_, hbefore⟩
    · rw [← String.ofList_append, ← String.ofList_append, ← hs, String.ofList_toList]
    · rw [size_toUTF8, String.toList_ofList]
    · rw [← String.ofList_append, size_toUTF8, String.toList_ofList]
  · rw [byteLength_append]
    exact extract_toUTF8 hs
  · exact hspace

end ScanError

/-! ### Pending text -/

namespace Pending

variable {pending pending' : Pending} {before : List Char} {c : Char} {done : List Token}
  {cause : ScanError}

/-- Pending text without a space is a word, or looks like a numeral without being a digit too
much. -/
def IsPiece : Pending → Prop
  | .nothing => True
  | .word _ text => text ≠ [] ∧ ∀ c ∈ text, IsWordChar c
  | .numeral _ text => ' ' ∉ text ∧ ScanError.hasNumeralChar text = true ∧
      ScanError.hasDigitInWord text = false

theorem IsPiece.space_notMem (h : pending.IsPiece) : ' ' ∉ pending.text := by
  cases pending with
  | nothing => simp [text]
  | word start text => exact fun hspace => (h.2 ' ' hspace).1 rfl
  | numeral start text => exact h.1

/-- Once a text is read, scanning goes on from what is pending, whatever follows. -/
def Resumes (read : List Char) (pending : Pending) : Prop :=
  ∃ done, ∀ rest, Token.scanFrom .nothing 0 (read ++ rest) =
    (Token.scanFrom pending (byteLength read) rest).map (done ++ ·)

theorem Resumes.nil : Resumes [] .nothing := ⟨[], fun _ => (Token.map_nil_append _).symm⟩

theorem Resumes.step {read : List Char} (h : Resumes read pending)
    (hstep : pending.step (byteLength read) c = .ok (done, pending')) :
    Resumes (read ++ [c]) pending' := by
  obtain ⟨before, hbefore⟩ := h
  refine ⟨before ++ done, fun rest => ?_⟩
  rw [List.append_assoc, List.singleton_append, hbefore, Token.scanFrom_cons hstep,
    byteLength_append_singleton]
  cases Token.scanFrom pending' (byteLength read + c.utf8Size) rest with
  | error => rfl
  | ok tokens => exact congrArg Except.ok (List.append_assoc before done tokens).symm

/-- If the pending text can end where the text ends, the text has no error. -/
theorem Resumes.exists_scan {read : List Char} (h : Resumes read pending)
    (hfinish : pending.finish (byteLength read) = .ok done) :
    ∃ tokens, Token.scan (String.ofList read) = .ok tokens := by
  obtain ⟨before, hbefore⟩ := h
  have hread := hbefore []
  rw [List.append_nil, Token.scanFrom, hfinish] at hread
  exact ⟨before ++ done, by rwa [Token.scan, String.toList_ofList]⟩

/-- Pending text stands behind a text that is scanned by itself. -/
structure Behind (before : List Char) (pending : Pending) : Prop where
  start_eq : pending.start (byteLength (before ++ pending.text)) = byteLength before
  exists_scan : ∃ tokens, Token.scan (String.ofList before) = .ok tokens
  resumes : Resumes (before ++ pending.text) pending
  isPiece : pending.IsPiece

theorem Resumes.behind {read : List Char} (h : Resumes read .nothing) : Behind read .nothing where
  start_eq := by rw [text, List.append_nil, start]
  exists_scan := h.exists_scan rfl
  resumes := by rwa [text, List.append_nil]
  isPiece := trivial

theorem behind_nil : Behind [] .nothing := Resumes.nil.behind

/-- The pending text goes on to stand behind such a text. -/
theorem Behind.step (h : Behind before pending)
    (hstep : pending.step (byteLength (before ++ pending.text)) c = .ok (done, pending')) :
    ∃ before', before' ++ pending'.text = before ++ pending.text ++ [c] ∧ Behind before' pending' := by
  have hresumes := h.resumes.step hstep
  have ended (hp : pending' = .nothing) : ∃ before',
      before' ++ pending'.text = before ++ pending.text ++ [c] ∧ Behind before' pending' := by
    subst hp
    exact ⟨_, List.append_nil _, hresumes.behind⟩
  rcases step_cases hstep with ⟨-, -, hp⟩ | ⟨hc, hword, -, hp⟩ |
    ⟨hc, -, finished, more, hfinish, hextend, -⟩ | ⟨hc, hp, hextend⟩
  · exact ended hp
  · subst hp
    refine ⟨before, (List.append_assoc _ _ _).symm, h.start_eq, h.exists_scan, ?_, ?_, ?_, ?_⟩
    · rwa [List.append_assoc] at hresumes
    · simpa [hc.ne_space.symm] using h.isPiece.space_notMem
    · exact ScanError.hasNumeralChar_iff.mpr ⟨c, by simp, hc⟩
    · rw [ScanError.hasDigitInWord_append_singleton]
      cases hdigit : c.isDigit with
      | false => rfl
      | true => rw [hword hdigit, Bool.and_false]
  · rcases extendWord_cases hextend with ⟨-, -, hp, -⟩ | ⟨-, -, hp⟩
    · exact ended hp
    · -- a word begins where the numeral ends
      subst hp
      refine ⟨before ++ pending.text, rfl, rfl, h.resumes.exists_scan hfinish, hresumes, ?_⟩
      exact ⟨by simp [text], by simpa [text] using hc⟩
  · rcases extendWord_cases hextend with ⟨-, -, hp', -⟩ | ⟨-, -, hp'⟩
    · exact ended hp'
    · subst hp'
      refine ⟨before, (List.append_assoc _ _ _).symm, h.start_eq, h.exists_scan, ?_, ?_, ?_⟩
      · rwa [List.append_assoc] at hresumes
      · simp
      · cases pending with
        | nothing => simpa [text] using hc
        | word start text =>
          exact List.forall_mem_append.mpr ⟨h.isPiece.2, List.forall_mem_singleton.mpr hc⟩
        | numeral start text => exact absurd rfl (hp start text)

/-- Pending text that cannot end is pointed at. -/
theorem Behind.pointsInto_of_finish (h : Behind before pending) {s : String} {rest : List Char}
    (hs : s.toList = before ++ pending.text ++ rest)
    (hfinish : pending.finish (byteLength (before ++ pending.text)) = .error cause) :
    cause.PointsInto s := by
  rcases finish_error_cases hfinish with ⟨start, text, rfl, rfl⟩ | ⟨start, text, rfl, rfl⟩
  · obtain ⟨hne, hword⟩ := h.isPiece
    obtain rfl : start = byteLength before := h.start_eq
    rw [← ScanError.refusing_of_isWordChar hword]
    exact ScanError.pointsInto_refusing hs hne h.isPiece.space_notMem h.exists_scan
  · obtain ⟨-, hnumeral, hdigit⟩ := h.isPiece
    obtain rfl : start = byteLength before := h.start_eq
    have hne : text ≠ [] := by
      rintro rfl
      exact absurd hnumeral (by decide)
    rw [← ScanError.refusing_of_hasNumeralChar hnumeral hdigit]
    exact ScanError.pointsInto_refusing hs hne h.isPiece.space_notMem h.exists_scan

/-- What is refused together with a character is pointed at. -/
theorem Behind.pointsInto_of_step (h : Behind before pending) {s : String} {rest : List Char}
    (hs : s.toList = before ++ pending.text ++ c :: rest)
    (hstep : pending.step (byteLength (before ++ pending.text)) c = .error cause) :
    cause.PointsInto s := by
  rcases step_error_cases hstep with hfinish | ⟨hdigit, hletter, rfl⟩
  · exact h.pointsInto_of_finish hs hfinish
  · have hsplit : s.toList = before ++ (pending.text ++ [c]) ++ rest := by simpa using hs
    have hspace : ' ' ∉ pending.text ++ [c] := by
      have hc : c ≠ ' ' := by
        rintro rfl
        exact absurd hdigit (by decide)
      simpa [hc.symm] using h.isPiece.space_notMem
    have hpiece : ScanError.hasDigitInWord (pending.text ++ [c]) = true := by
      rw [ScanError.hasDigitInWord_append_singleton, hdigit, hletter]
      rfl
    rw [← ScanError.refusing_of_hasDigitInWord hpiece, h.start_eq, ← byteLength_append_singleton,
      List.append_assoc]
    exact ScanError.pointsInto_refusing hsplit (by simp) hspace h.exists_scan

/-- Wherever scanning fails, it points at what is bad. -/
theorem Behind.pointsInto (h : Behind before pending) {s : String} {rest : List Char}
    (hs : s.toList = before ++ pending.text ++ rest)
    (hscan : Token.scanFrom pending (byteLength (before ++ pending.text)) rest = .error cause) :
    cause.PointsInto s := by
  induction rest generalizing before pending with
  | nil => exact h.pointsInto_of_finish hs hscan
  | cons c rest ih =>
    cases hstep : pending.step (byteLength (before ++ pending.text)) c with
    | error cause' =>
      rw [Token.scanFrom_cons_error hstep] at hscan
      cases hscan
      exact h.pointsInto_of_step hs hstep
    | ok next =>
      obtain ⟨done, pending'⟩ := next
      obtain ⟨before', hread, h'⟩ := h.step hstep
      have hs' : s.toList = before' ++ pending'.text ++ rest := by
        rw [hs, hread, List.append_assoc _ [c], List.singleton_append]
      rw [Token.scanFrom_cons hstep, ← byteLength_append_singleton, ← hread] at hscan
      exact ih h' hs' (error_of_map hscan)

end Pending

/-- **Where scanning fails, it points at the first bad piece of the text.** -/
theorem Token.pointsInto_of_scan {s : String} {e : ScanError} (h : scan s = .error e) :
    e.PointsInto s :=
  Pending.behind_nil.pointsInto (by simp [Pending.text]) h

/-- A digit is refused with the letters in front of it, even behind a point. -/
theorem Token.pointsInto_of_scan_digit :
    scan "x + éa.5" = .error (.digitInWord "éa.5" ⟨4, 9⟩) ∧
      (ScanError.digitInWord "éa.5" ⟨4, 9⟩).PointsInto "x + éa.5" :=
  ⟨rfl, pointsInto_of_scan rfl⟩

end Fluxion
