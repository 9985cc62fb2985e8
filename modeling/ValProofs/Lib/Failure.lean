import Mathlib.Tactic.Common

/-!
Computations that fail in certain ways only.

A handler catches some of the failures of a computation and lets the others
through. `FailsOnly P x` says that every failure of `x` is one that `P` holds
of; the rules follow the shape of a `do` block.
-/

namespace ValProofs.Lib

/-- Every failure of the computation meets `P`. -/
def FailsOnly {ε α : Type} (P : ε → Prop) (x : Except ε α) : Prop := ∀ e, x = .error e → P e

section Rules

variable {ε α β : Type} {P : ε → Prop}

theorem failsOnly_ok (a : α) : FailsOnly P (.ok a : Except ε α) := fun _ he => by cases he

theorem failsOnly_error {e : ε} : FailsOnly P (.error e : Except ε α) ↔ P e :=
  ⟨fun h => h e rfl, fun h e' he' => by cases he'; exact h⟩

variable {x : Except ε α}

/-- The rule for one line of a `do` block. -/
theorem FailsOnly.bind {f : α → Except ε β} (h : FailsOnly P x)
    (hf : ∀ a, x = .ok a → FailsOnly P (f a)) : FailsOnly P (x >>= f) := by
  cases x with
  | error e => exact failsOnly_error.mpr (h e rfl)
  | ok a => exact hf a rfl

theorem FailsOnly.map (h : FailsOnly P x) (f : α → β) : FailsOnly P (x.map f) := by
  cases x with
  | error e => exact failsOnly_error.mpr (h e rfl)
  | ok a => exact failsOnly_ok _

theorem failsOnly_mapError {ε' : Type} {f : ε' → ε} (hf : ∀ e, P (f e)) (x : Except ε' α) :
    FailsOnly P (x.mapError f) := by
  cases x with
  | error e => exact failsOnly_error.mpr (hf e)
  | ok a => exact failsOnly_ok a

theorem eq_ok_of_mapError {ε' : Type} {f : ε' → ε} {x : Except ε' α} {a : α}
    (h : x.mapError f = .ok a) : x = .ok a := by
  cases x with
  | error e => cases h
  | ok b => cases h; rfl

/-- The rule for a loop. -/
theorem failsOnly_mapM {f : α → Except ε β} {as : List α} (h : ∀ a ∈ as, FailsOnly P (f a)) :
    FailsOnly P (as.mapM f) := by
  induction as with
  | nil => exact failsOnly_ok _
  | cons a as ih =>
    obtain ⟨ha, has⟩ := List.forall_mem_cons.mp h
    rw [List.mapM_cons]
    exact ha.bind fun b _ => (ih has).bind fun bs _ => failsOnly_ok _

end Rules

end ValProofs.Lib
