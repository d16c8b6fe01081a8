import Fluxion.Derivation
import Fluxion.Proofs.Readable

/-!
# Repeated derivation

Each step of a repeated derivation reads the derivative that the step before printed. The first text
may be anything, and reading it may fail. After that nothing can fail any more: the numbers of a
formula that was read are finite and without a sign, so are those of its derivative, and such a
formula is printed as a text that can be read (`exists_chain`).

All this is about orders that a list has room for. The room is asked for first, so above that bound no
text is even read, not even one whose error ought to be reported: a limit that admits such an order
breaks the computation off for every text alike (`repeated_eq_panic_iff`).
-/

namespace Fluxion.Derivation

/-- Derivations in a row from a text: the first is of that text, each later one is of the derivative
before it, and each is what its own input derives to. -/
structure IsRun (input : String) (steps : List Derivation) : Prop where
  first : ∀ step ∈ steps.head?, step.input = input
  next : ∀ i (h : i + 1 < steps.length), steps[i + 1].input = steps[i].derivative
  derived : ∀ step ∈ steps, ofText step.input = .ok step

theorem IsRun.nil (input : String) : IsRun input [] := ⟨nofun, nofun, nofun⟩

/-- One derivation in front of a run from its derivative. -/
theorem IsRun.cons {step : Derivation} {steps : List Derivation} (hstep : ofText step.input = .ok step)
    (h : IsRun step.derivative steps) : IsRun step.input (step :: steps) where
  first := by simp
  next i hi := by
    cases i with
    | zero =>
      cases steps with
      | nil => exact absurd hi (by simp)
      | cons later steps => exact h.first later rfl
    | succ i => exact h.next i (by simpa using hi)
  derived := List.forall_mem_cons.mpr ⟨hstep, h.derived⟩

/-- A derivation of a formula that was read prints a derivative that can be read. -/
theorem exists_ofText_derivative {input : String} {a : Formula} (h : Formula.ofText input = .ok a) :
    ∃ b, Formula.ofText (ofFormula input a).derivative = .ok b :=
  Formula.exists_ofText_text (Formula.isUnsigned_of_ofText h).derivative

/-- From a text that can be read there is a run of any length. -/
theorem exists_chain {input : String} {a : Formula} (h : Formula.ofText input = .ok a) (n : Nat) :
    ∃ steps, chain input n = .ok steps ∧ steps.length = n ∧ IsRun input steps := by
  induction n generalizing input a with
  | zero => exact ⟨[], rfl, rfl, .nil input⟩
  | succ n ih =>
    have hstep : ofText input = .ok (ofFormula input a) := by
      rw [ofText, h]
      rfl
    obtain ⟨b, hb⟩ := exists_ofText_derivative h
    obtain ⟨steps, hsteps, hlength, hrun⟩ := ih hb
    refine ⟨ofFormula input a :: steps, ?_, by simp [hlength], .cons hstep hrun⟩
    rw [chain_succ, hstep]
    simp only [Except.bind, hsteps]
    rfl

/-- From a text that cannot be read there is no first step. -/
theorem chain_error {input : String} {cause : ReadError} (h : Formula.ofText input = .error cause)
    (n : Nat) : chain input (n + 1) = .error cause := by
  rw [chain_succ, ofText, h]
  rfl

section repeated

variable {limits : Limits} {input : String} {order : Nat}

theorem repeated_of_limit_lt (h : limits.maxOrder < order) :
    repeated limits input order = .ok (.error (.orderTooHigh order limits.maxOrder)) := by
  rw [repeated, if_pos h]

/-- Within the limit and the room, repeated derivation is a chain. -/
theorem repeated_of_le (hlimit : order ≤ limits.maxOrder) (hroom : order ≤ maxRoom) :
    repeated limits input order = .ok ((chain input order).mapError .read) := by
  rw [repeated, if_neg (Nat.not_lt.mpr hlimit), if_neg (Nat.not_lt.mpr hroom)]

/-- Repeated derivation breaks off, whatever the text, at the orders that the limit admits and no list
has room for. -/
theorem repeated_eq_panic_iff :
    repeated limits input order = .error .capacityOverflow ↔
      order ≤ limits.maxOrder ∧ maxRoom < order := by
  rw [repeated]
  split_ifs with hlimit hroom
  · simp [Nat.not_le.mpr hlimit]
  · simp [Nat.not_lt.mp hlimit, hroom]
  · simp [hroom]

/-- A text that cannot be read is refused, for the cause that reading it has, and no other text is. -/
theorem repeated_eq_error_iff (hpos : 1 ≤ order) (hlimit : order ≤ limits.maxOrder)
    (hroom : order ≤ maxRoom) {cause : DeriveError} :
    repeated limits input order = .ok (.error cause) ↔
      ∃ e, cause = .read e ∧ Formula.ofText input = .error e := by
  obtain ⟨n, rfl⟩ : ∃ n, order = n + 1 := ⟨order - 1, by omega⟩
  rw [repeated_of_le hlimit hroom]
  cases h : Formula.ofText input with
  | error e => simp [chain_error h, Except.mapError, eq_comm]
  | ok a =>
    obtain ⟨steps, hsteps, -⟩ := exists_chain h (n + 1)
    simp [hsteps, Except.mapError]

/-- From a text that can be read there is a whole run. -/
theorem exists_repeated {a : Formula} (hlimit : order ≤ limits.maxOrder) (hroom : order ≤ maxRoom)
    (h : Formula.ofText input = .ok a) :
    ∃ steps, repeated limits input order = .ok (.ok steps) ∧ steps.length = order ∧
      IsRun input steps := by
  obtain ⟨steps, hsteps, hlength, hrun⟩ := exists_chain h order
  refine ⟨steps, ?_, hlength, hrun⟩
  rw [repeated_of_le hlimit hroom, hsteps]
  rfl

end repeated

/-- **What repeated derivation gives**: over the limit, the error that says so; for order zero,
nothing; for an order that the limit admits and no list has room for, no result; and otherwise the error
of reading the text, or a whole run from it. -/
theorem repeated_cases (limits : Limits) (input : String) (order : Nat) :
    (limits.maxOrder < order →
      repeated limits input order = .ok (.error (.orderTooHigh order limits.maxOrder))) ∧
    (order = 0 → repeated limits input order = .ok (.ok [])) ∧
    (repeated limits input order = .error .capacityOverflow ↔
      order ≤ limits.maxOrder ∧ maxRoom < order) ∧
    (1 ≤ order → order ≤ limits.maxOrder → order ≤ maxRoom →
      (∀ cause, repeated limits input order = .ok (.error cause) ↔
        ∃ e, cause = .read e ∧ Formula.ofText input = .error e) ∧
      ∀ a, Formula.ofText input = .ok a →
        ∃ steps, repeated limits input order = .ok (.ok steps) ∧ steps.length = order ∧
          IsRun input steps) := by
  refine ⟨repeated_of_limit_lt, fun h => ?_, repeated_eq_panic_iff, fun hpos hlimit hroom =>
    ⟨fun cause => repeated_eq_error_iff hpos hlimit hroom, fun a => exists_repeated hlimit hroom⟩⟩
  subst h
  exact repeated_of_le (Nat.zero_le _) (Nat.zero_le _)

theorem repeated_cases_var : ∃ steps, repeated {} "x" 2 = .ok (.ok steps) ∧ steps.length = 2 ∧
    IsRun "x" steps :=
  ((repeated_cases {} "x" 2).2.2.2 (by decide) (by decide) (by decide)).2 .var (by rfl)

/-- **Not every text that cannot be read is refused**: the empty text is not, if as many derivatives are
allowed and asked for as can be counted in 64 bits. -/
theorem repeated_empty_panic :
    let limits : Limits := { maxOrder := 0xFFFFFFFFFFFFFFFF }
    Formula.ofText "" = .error .emptyInput ∧
      repeated limits "" limits.maxOrder = .error .capacityOverflow :=
  ⟨rfl, repeated_eq_panic_iff.mpr ⟨le_rfl, by decide⟩⟩

end Fluxion.Derivation
