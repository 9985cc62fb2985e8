import Mathlib.Data.List.Basic
import Mathlib.Data.List.Induction
import Mathlib.Tactic.Common

/-!
Loops over a list. A loop that erases the element it stands on and then goes on
from the front of the list ends up with the list without any of the elements it
looks for, whatever the number of them. A loop that carries a state makes of
each element what that element alone determines exactly if the elements before
it leave no trace. A loop whose steps may fail has a result if its invariant
rules the failures out.
-/

namespace ValProofs.Lib

open List

variable {α : Type}

/-- Erases the first element that satisfies `p` and starts again from the
front, until a whole pass finds none. The first argument bounds the number of
passes; the length of the list is always enough. -/
def eraseRestart (p : α → Bool) : ℕ → List α → List α
  | 0, l => l
  | n + 1, l => if l.any p then eraseRestart p n (l.eraseP p) else l

theorem filter_not_eraseP (p : α → Bool) (l : List α) :
    (l.eraseP p).filter (fun a => !p a) = l.filter fun a => !p a := by
  induction l with
  | nil => rfl
  | cons a l ih => cases ha : p a <;> simp [ha, ih]

/-- The loop removes exactly the elements it looks for. -/
theorem eraseRestart_eq_filter (p : α → Bool) (n : ℕ) (l : List α) (hn : l.length ≤ n) :
    eraseRestart p n l = l.filter fun a => !p a := by
  induction n generalizing l with
  | zero =>
    have hnil : l = [] := length_eq_zero_iff.mp (Nat.le_zero.mp hn)
    subst hnil
    rfl
  | succ n ih =>
    rw [eraseRestart]
    split
    · rename_i hany
      obtain ⟨a, ha, hpa⟩ := any_eq_true.mp hany
      have hlen := length_eraseP_of_mem ha hpa
      rw [ih _ (by omega), filter_not_eraseP]
    · rename_i hany
      refine (filter_eq_self.mpr fun a ha => ?_).symm
      cases hpa : p a with
      | false => rfl
      | true => exact absurd (any_eq_true.mpr ⟨a, ha, hpa⟩) hany

/-! ### Loops that carry a state -/

section Carried

variable {σ β : Type} (step : σ → α → σ) (out : σ → α → β)

/-- What a loop makes of the elements. The state is changed for each before
anything is made of it. -/
def outputs : σ → List α → List β
  | _, [] => []
  | s, a :: l => out (step s a) a :: outputs (step s a) l

theorem outputs_eq_map_iff (f : α → β) (s : σ) (l : List α) :
    outputs step out s l = l.map f ↔
      ∀ before a after, l = before ++ a :: after →
        out (step (before.foldl step s) a) a = f a := by
  induction l generalizing s with
  | nil => simp [outputs]
  | cons a l ih =>
    rw [outputs, map_cons, cons.injEq, ih]
    constructor
    · rintro ⟨hfirst, hrest⟩ before b after heq
      cases before with
      | nil =>
        cases heq
        exact hfirst
      | cons c before =>
        cases heq
        exact hrest before b after rfl
    · intro h
      refine ⟨h [] a l rfl, fun before b after heq => ?_⟩
      exact h (a :: before) b after (by rw [heq, cons_append])

end Carried

/-! ### Loops that may fail -/

/-- A loop has a result if each of its steps has, from what the steps before it lead to. -/
theorem exists_foldlM {σ : Type} {f : σ → α → Option σ} {P : List α → σ → Prop} {l : List α}
    (h : ∀ before a s, before ++ [a] <+: l → P before s →
      ∃ s', f s a = some s' ∧ P (before ++ [a]) s') {s : σ} (hs : P [] s) :
    ∃ s', l.foldlM f s = some s' ∧ P l s' := by
  induction l using reverseRecOn with
  | nil => exact ⟨s, rfl, hs⟩
  | append_singleton l a ih =>
    obtain ⟨s', hrun, hs'⟩ := ih fun before b s hdone =>
      h before b s (hdone.trans (prefix_append l [a]))
    obtain ⟨s'', hstep, hs''⟩ := h l a s' (prefix_refl _) hs'
    exact ⟨s'', by rw [foldlM_append, hrun]; simpa using hstep, hs''⟩

end ValProofs.Lib
