import Fluxion.Proofs.Settled

/-!
# Printing again what was printed

A text that can be read is put into the printer's own form by reading and printing it
(`Formula.reprint`). One round is not always enough: the text that is printed can be read as another
formula, which prints otherwise (`Formula.reprint_neg_square`). A printed text stays as it is
exactly if a clean formula prints so (`Formula.reprint_text_eq_iff`). And that is where it ends:
each text that can be read comes to such a text in some number of rounds and does not change any
more (`Formula.reprinted_eventually_constant`).
-/

namespace Fluxion.Formula

/-- Reads a text and prints what was read. -/
def reprint (text : String) : Except ReadError String := (ofText text).map Formula.text

/-- The text after some rounds of reading and printing. -/
def reprinted (text : String) : Nat → Except ReadError String
  | 0 => .ok text
  | n + 1 => (reprinted text n).bind reprint

variable {text : String} {a : Formula}

theorem reprint_eq (h : ofText text = .ok a) : reprint text = .ok a.text := by
  rw [reprint, h]
  rfl

theorem reprinted_succ {n : Nat} {u : String} (hu : reprinted text n = .ok u)
    (h : ofText u = .ok a) : reprinted text (n + 1) = .ok a.text := by
  rw [reprinted, hu]
  exact reprint_eq h

/-! ### Texts of clean formulas -/

/-- The text of a clean formula stays as it is. -/
theorem Clean.reprint_text (h : a.Clean) : reprint a.text = .ok a.text := reprint_eq h.ofText_eq

theorem Settled.exists_clean_text (hs : a.Settled) (h : a.IsUnsigned) :
    ∃ c : Formula, c.Clean ∧ c.text = a.text := by
  obtain ⟨c, hc, hprinted⟩ := hs.exists_clean h
  exact ⟨c, hc, by rw [Formula.text, Formula.text, hprinted]⟩

/-- What is read from its own text does not go downwards, so it prints like a clean formula. -/
theorem exists_clean_of_ofText_text (h : ofText a.text = .ok a) :
    ∃ c : Formula, c.Clean ∧ c.text = a.text := by
  have hunsigned := isUnsigned_of_ofText h
  obtain hs | hlt := hunsigned.settled_or_lt h
  · exact hs.exists_clean_text hunsigned
  · omega

/-! ### One round -/

/-- **When a printed text stays as it is**: exactly if a clean formula prints so; in particular if
nothing is left out of the formula that was printed first, and in it only numbers, the variable,
constants, functions and negations are negated. -/
theorem reprint_text_eq_iff (h : ofText text = .ok a) :
    ∃ u, reprint a.text = .ok u ∧ (u = a.text ↔ ∃ c : Formula, c.Clean ∧ c.text = a.text) ∧
      (a.Settled → u = a.text) := by
  have hunsigned := isUnsigned_of_ofText h
  obtain ⟨b, hb⟩ := exists_ofText_text hunsigned
  have hkept : (∃ c : Formula, c.Clean ∧ c.text = a.text) → b.text = a.text := by
    rintro ⟨c, hc, htext⟩
    have hreprint := hc.reprint_text
    rw [htext, reprint_eq hb] at hreprint
    exact Except.ok.inj hreprint
  refine ⟨b.text, reprint_eq hb, ⟨fun heq => ?_, hkept⟩, fun hs => ?_⟩
  · have hself : ofText b.text = .ok b := heq ▸ hb
    obtain ⟨c, hc, htext⟩ := exists_clean_of_ofText_text hself
    exact ⟨c, hc, htext.trans heq⟩
  · exact hkept (hs.exists_clean_text hunsigned)

/-- A sum on the right of a sum prints without brackets, and stays so. -/
theorem reprint_text_eq_iff_sum :
    let a : Formula := .constant .e + (.var + .var)
    ofText "e+(x+x)" = .ok a ∧ ∃ u, reprint a.text = .ok u ∧
      (u = a.text ↔ ∃ c : Formula, c.Clean ∧ c.text = a.text) ∧ (a.Settled → u = a.text) :=
  have hread : ofText "e+(x+x)" = .ok (.constant .e + (.var + .var)) := by rfl
  ⟨hread, reprint_text_eq_iff hread⟩

/-- A minus in front of a product is read in front of its first factor, which is then put in
brackets. -/
theorem reprint_neg_square :
    ∃ u v, reprint "-(x*x)" = .ok u ∧ reprint u = .ok v ∧ v ≠ u := by
  have hread : ofText "-(x*x)" = .ok (-(.var * .var)) := by rfl
  have hread' : ofText "-x * x" = .ok (-.var * .var) := by rfl
  have htext : (-(.var * .var) : Formula).text = "-x * x" := by decide +kernel
  refine ⟨"-x * x", (-.var * .var : Formula).text, ?_, reprint_eq hread', by decide +kernel⟩
  rw [reprint_eq hread, htext]

/-! ### All rounds -/

/-- After each round there is a text, and it can be read. -/
theorem exists_reprinted (h : ofText text = .ok a) (n : Nat) :
    ∃ u b, reprinted text n = .ok u ∧ ofText u = .ok b := by
  induction n with
  | zero => exact ⟨text, a, rfl, h⟩
  | succ n ih =>
    obtain ⟨u, b, hu, hb⟩ := ih
    obtain ⟨c, hc⟩ := exists_ofText_text (isUnsigned_of_ofText hb)
    exact ⟨b.text, c, reprinted_succ hu hb, hc⟩

/-- Some round ends with the text of a clean formula, since each round before goes downwards. -/
theorem exists_reprinted_clean {n : Nat} {u : String} {b : Formula}
    (hu : reprinted text n = .ok u) (hb : ofText u = .ok b) :
    ∃ k, ∃ c : Formula, c.Clean ∧ reprinted text k = .ok c.text := by
  have hunsigned := isUnsigned_of_ofText hb
  have hnext := reprinted_succ hu hb
  obtain ⟨b', hb'⟩ := exists_ofText_text hunsigned
  obtain hs | hlt := hunsigned.settled_or_lt hb'
  · obtain ⟨c, hc, htext⟩ := hs.exists_clean_text hunsigned
    exact ⟨n + 1, c, hc, by rw [hnext, htext]⟩
  · exact exists_reprinted_clean hnext hb'
termination_by (b.length, b.negated)
decreasing_by
  obtain hlt | ⟨heq, hlt⟩ := hlt
  · exact .left _ _ hlt
  · rw [heq]
    exact .right _ hlt

theorem reprinted_add {k : Nat} {c : Formula} (hc : c.Clean) (hk : reprinted text k = .ok c.text)
    (n : Nat) : reprinted text (k + n) = .ok c.text := by
  induction n with
  | zero => exact hk
  | succ n ih => exact reprinted_succ ih hc.ofText_eq

/-- **Reading and printing comes to an end**: if a text can be read, so can the text after each
round, and from some round on it is the same text, which is that of a clean formula. -/
theorem reprinted_eventually_constant (h : ofText text = .ok a) :
    (∀ n, ∃ u b, reprinted text n = .ok u ∧ ofText u = .ok b) ∧
    ∃ k, (∀ n, k ≤ n → reprinted text n = reprinted text k) ∧
      ∃ c : Formula, c.Clean ∧ reprinted text k = .ok c.text := by
  refine ⟨exists_reprinted h, ?_⟩
  have hstart : reprinted text 0 = .ok text := rfl
  obtain ⟨k, c, hc, hk⟩ := exists_reprinted_clean hstart h
  refine ⟨k, fun n hn => ?_, c, hc, hk⟩
  obtain ⟨m, rfl⟩ := Nat.exists_eq_add_of_le hn
  rw [reprinted_add hc hk, hk]

theorem reprinted_eventually_constant_neg_square :
    ofText "-(x*x)" = .ok (-(.var * .var)) ∧
    (∀ n, ∃ u b, reprinted "-(x*x)" n = .ok u ∧ ofText u = .ok b) ∧
    ∃ k, (∀ n, k ≤ n → reprinted "-(x*x)" n = reprinted "-(x*x)" k) ∧
      ∃ c : Formula, c.Clean ∧ reprinted "-(x*x)" k = .ok c.text :=
  have hread : ofText "-(x*x)" = .ok (-(.var * .var)) := by rfl
  ⟨hread, reprinted_eventually_constant hread⟩

end Fluxion.Formula
