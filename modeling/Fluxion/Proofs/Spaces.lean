import Fluxion.Proofs.Spans

/-!
# Texts with a space between them

A space ends whatever is pending, just as the end of the text does. So a text with a space in it can be
scanned piece by piece (`Token.scan_append_space`): what stands in front of the space is scanned as if
it were all, and what stands behind is scanned as a text of its own, only further to the right. That
the place of a text decides about nothing but spans (`Token.scanFrom_shift`) is the one thing to know
of all the rest of the scanner, since there the offset is only carried along.
-/

namespace Fluxion

/-! ### Moving to the right -/

/-- The token further to the right. -/
def Token.shift (bytes : Nat) (token : Token) : Token :=
  { token with span := token.span.shift bytes }

/-- The error further to the right. -/
def ScanError.shift (bytes : Nat) : ScanError → ScanError
  | .digitInWord text span => .digitInWord text (span.shift bytes)
  | .unknownWord text span => .unknownWord text (span.shift bytes)
  | .badNumeral text span => .badNumeral text (span.shift bytes)

/-- The tokens further to the right, or the error. -/
def Token.shifted (bytes : Nat) (result : Except ScanError (List Token)) :
    Except ScanError (List Token) :=
  (result.map (List.map (shift bytes))).mapError (ScanError.shift bytes)

namespace Pending

variable (pending : Pending) (offset bytes : Nat) (c : Char)

/-- The pending text further to the right. -/
def shift (bytes : Nat) : Pending → Pending
  | .nothing => .nothing
  | .word start text => .word (start + bytes) text
  | .numeral start text => .numeral (start + bytes) text

@[simp] theorem text_shift : (pending.shift bytes).text = pending.text := by
  cases pending <;> rfl

@[simp] theorem start_shift :
    (pending.shift bytes).start (offset + bytes) = pending.start offset + bytes := by
  cases pending <;> rfl

theorem finish_shift :
    (pending.shift bytes).finish (offset + bytes) = Token.shifted bytes (pending.finish offset) := by
  cases pending with
  | nothing | word => rfl
  | numeral start text =>
    simp only [shift, finish]
    split <;> rfl

theorem extendWord_shift :
    (pending.shift bytes).extendWord (offset + bytes) c =
      (pending.extendWord offset c).map (List.map (Token.shift bytes)) (shift bytes) := by
  simp only [extendWord, text_shift, start_shift, Nat.add_right_comm offset bytes]
  split <;> rfl

/-- A character further to the right does the same there. -/
theorem step_shift :
    (pending.shift bytes).step (offset + bytes) c =
      ((pending.step offset c).map (Prod.map (List.map (Token.shift bytes)) (shift bytes))).mapError
        (ScanError.shift bytes) := by
  simp only [step, text_shift, start_shift, Nat.add_right_comm offset bytes]
  split_ifs with hspace hword hnumeral
  · rw [finish_shift]
    cases pending.finish offset <;> rfl
  · rfl
  · rfl
  · cases pending with
    | nothing | word => exact congrArg Except.ok (extendWord_shift _ offset bytes c)
    | numeral start text =>
      have hmore := extendWord_shift .nothing offset bytes c
      have hended := finish_shift (.numeral start text) offset bytes
      simp only [shift] at hmore hended ⊢
      rw [hmore, hended]
      cases (numeral start text).finish offset with
      | error => rfl
      | ok ended => exact congrArg (fun tokens => Except.ok (tokens, _)) List.map_append.symm

end Pending

namespace Token

theorem shifted_map_append (bytes : Nat) (done : List Token)
    (result : Except ScanError (List Token)) :
    shifted bytes (result.map (done ++ ·)) =
      (shifted bytes result).map (done.map (shift bytes) ++ ·) := by
  cases result with
  | error => rfl
  | ok tokens => exact congrArg Except.ok List.map_append

/-- A text further to the right is scanned alike. -/
theorem scanFrom_shift (pending : Pending) (offset bytes : Nat) (text : List Char) :
    scanFrom (pending.shift bytes) (offset + bytes) text =
      shifted bytes (scanFrom pending offset text) := by
  induction text generalizing pending offset with
  | nil => exact pending.finish_shift offset bytes
  | cons c text ih =>
    have hshift := pending.step_shift offset bytes c
    cases hstep : pending.step offset c with
    | error cause =>
      rw [hstep] at hshift
      rw [scanFrom_cons_error hstep, scanFrom_cons_error hshift]
      rfl
    | ok next =>
      obtain ⟨done, pending'⟩ := next
      rw [hstep] at hshift
      rw [scanFrom_cons hstep, scanFrom_cons hshift, Nat.add_right_comm, ih, shifted_map_append]

/-- A space ends the pending text as the end of the text does. -/
theorem scanFrom_append_space (pending : Pending) (offset : Nat) (text more : List Char) :
    scanFrom pending offset (text ++ ' ' :: more) = (scanFrom pending offset text).bind fun tokens =>
      (scanFrom .nothing (offset + byteLength text + 1) more).map (tokens ++ ·) := by
  induction text generalizing pending offset with
  | nil =>
    have hspace := pending.step_space offset
    rw [List.nil_append, scanFrom]
    cases hfinish : pending.finish offset with
    | error cause =>
      rw [hfinish] at hspace
      rw [scanFrom_cons_error hspace]
      rfl
    | ok tokens =>
      rw [hfinish] at hspace
      rw [scanFrom_cons hspace]
      rfl
  | cons c text ih =>
    rw [List.cons_append]
    cases hstep : pending.step offset c with
    | error cause =>
      rw [scanFrom_cons_error hstep, scanFrom_cons_error hstep]
      rfl
    | ok next =>
      obtain ⟨done, pending'⟩ := next
      have hoffset : offset + byteLength (c :: text) = offset + c.utf8Size + byteLength text := by
        rw [Nat.add_assoc]
        rfl
      rw [scanFrom_cons hstep, scanFrom_cons hstep, ih, hoffset]
      cases scanFrom pending' (offset + c.utf8Size) text with
      | error => rfl
      | ok tokens =>
        simp only [Except.map, Except.bind]
        cases scanFrom .nothing (offset + c.utf8Size + byteLength text + 1) more <;> simp

/-- **Texts with a space between them are scanned one after the other**: the first is scanned as if
it were all, and the error there is the error of the whole; then the second is scanned as a text of
its own, and all spans, those of its tokens or that of its error, are moved behind the space. -/
theorem scan_append_space (s t : String) :
    scan (s ++ " " ++ t) = do
      let tokens ← scan s
      let more ← shifted (s.toUTF8.size + 1) (scan t)
      return tokens ++ more := by
  have hlist : (s ++ " " ++ t).toList = s.toList ++ ' ' :: t.toList := by simp
  have hshift : scanFrom .nothing (0 + byteLength s.toList + 1) t.toList =
      shifted (s.toUTF8.size + 1) (scan t) := by
    rw [size_toUTF8, Nat.add_assoc]
    exact scanFrom_shift .nothing 0 _ t.toList
  rw [scan, hlist, scanFrom_append_space, hshift, ← scan]
  cases scan s with
  | error => rfl
  | ok tokens => cases scan t <;> rfl

end Token

end Fluxion
