import Fluxion.Binary64.Numeral
import Fluxion.Proofs.Binary64.Real

/-!
# Opposite numbers

Every number has an opposite, which differs in the sign alone (`Binary64.neg`) and has the opposite value
(`Binary64.toReal_neg`). A minus in front of a numeral makes it spell the opposite number
(`Binary64.ofList?_minus`), since rounding does not depend on the sign.
-/

namespace Fluxion

namespace Binary64

/-- The number with the other sign. -/
def neg : Binary64 → Binary64
  | .finite negative place => .finite (!negative) place
  | .infinite negative => .infinite (!negative)
  | .nan => .nan

@[simp] theorem isFinite_neg (v : Binary64) : v.neg.isFinite = v.isFinite := by
  cases v <;> rfl

theorem toReal_neg (v : Binary64) : v.neg.toReal = -v.toReal := by
  cases v with
  | finite negative place => cases negative <;> simp [neg, toReal]
  | infinite | nan => simp [neg, toReal]

theorem nearest_true (num den : Nat) : nearest true num den = (nearest false num den).neg := by
  unfold nearest
  dsimp only
  split <;> rfl

end Binary64

theorem Decimal.toBinary64_true (d : Decimal) : d.toBinary64 true = (d.toBinary64 false).neg := by
  unfold toBinary64
  split <;> exact Binary64.nearest_true _ _

/-- A minus in front of a numeral that has no sign of its own. -/
theorem Binary64.ofList?_minus {text : List Char} (h : Decimal.splitSign text = (false, text)) :
    ofList? ('-' :: text) = (ofList? text).map neg := by
  have hminus : Decimal.splitSign ('-' :: text) = (true, text) := rfl
  simp only [ofList?, hminus, h]
  split_ifs
  · rfl
  · rfl
  · rw [Option.map_map]
    exact congrArg (Option.map · _) (funext Decimal.toBinary64_true)

end Fluxion
