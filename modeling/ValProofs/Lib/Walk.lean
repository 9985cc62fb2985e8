import Mathlib.Data.List.Basic
import Mathlib.Tactic.Common

/-!
Walks by a function that gives the next position.

A step gives the position after another one, or none at the end, and it may fail.
`Walks next l last` says that the steps lead along `l`, and from there to `last`. Such
walks can be joined. A loop that goes on to the next position with a value then comes
by the values along the walk, and a loop over these has them all, in their order.
-/

namespace ValProofs.Lib

open List Option

variable {α β : Type} {next : α → Option (Option α)} {l : List α} {last : Option α}

/-- From each position a step leads to the one after it, and from the last to `last`. -/
def Walks (next : α → Option (Option α)) : List α → Option α → Prop
  | [], _ => True
  | a :: l, last => next a = some (l.head?.or last) ∧ Walks next l last

theorem Walks.append {l' : List α} (h : Walks next l (l'.head?.or last))
    (h' : Walks next l' last) : Walks next (l ++ l') last := by
  induction l with
  | nil => exact h'
  | cons a l ih =>
    rw [cons_append]
    refine ⟨?_, ih h.2⟩
    rw [h.1, head?_append, Option.or_assoc]

/-- The positions are those of a part, in which the walk goes on where the part ends. -/
theorem Walks.map {next' : β → Option (Option β)} {f : α → β} {last' : Option β}
    (h : Walks next l none)
    (hf : ∀ a b, next a = some b → next' (f a) = some ((b.map f).or last')) :
    Walks next' (l.map f) last' := by
  induction l with
  | nil => trivial
  | cons a l ih =>
    refine ⟨?_, ih h.2⟩
    rw [hf a _ h.1, or_none, head?_map]

/-! ### Loops -/

/-- The loop that goes on to the next position with a value. The first argument bounds the
number of turns. -/
def seek (next : α → Option (Option α)) (value : α → Option β) :
    ℕ → Option α → Option (Option β)
  | 0, _ => none
  | _ + 1, none => some none
  | fuel + 1, some a =>
      match value a with
      | none => (next a).bind (seek next value fuel)
      | some b => some (some b)

/-- The loop over all positions, until the end. -/
def collect (next : α → Option (Option α)) : ℕ → Option α → Option (List α)
  | _, none => some []
  | 0, some _ => none
  | turns + 1, some a =>
      (next a).bind fun item => (collect next turns item).map (a :: ·)

variable {value : α → Option β} {fuel : ℕ}

theorem Walks.seek (h : Walks next l none) (hfuel : l.length < fuel) :
    seek next value fuel l.head? = some (l.findSome? value) := by
  induction l generalizing fuel with
  | nil =>
    obtain ⟨fuel, rfl⟩ := Nat.exists_eq_add_one.mpr hfuel
    rfl
  | cons a l ih =>
    obtain ⟨fuel, rfl⟩ := Nat.exists_eq_add_one.mpr (Nat.zero_lt_of_lt hfuel)
    rw [head?_cons, Lib.seek, findSome?_cons]
    cases value a with
    | none =>
      rw [h.1, or_none]
      exact ih h.2 (Nat.lt_of_succ_lt_succ hfuel)
    | some b => rfl

/-- The values are walked along by a step and that loop. -/
theorem Walks.filterMap (h : Walks next l none) (hfuel : l.length < fuel)
    {next' : β → Option (Option β)}
    (hnext : ∀ a ∈ l, ∀ b, value a = some b → next' b = (next a).bind (Lib.seek next value fuel)) :
    Walks next' (l.filterMap value) none := by
  induction l with
  | nil => trivial
  | cons a l ih =>
    obtain ⟨hfirst, hrest⟩ := forall_mem_cons.mp hnext
    have hshort := Nat.lt_of_succ_lt hfuel
    rw [filterMap_cons]
    split
    · exact ih h.2 hshort hrest
    · rename_i b hb
      refine ⟨?_, ih h.2 hshort hrest⟩
      rw [hfirst b hb, h.1, or_none, or_none, head?_filterMap]
      exact h.2.seek hshort

theorem Walks.collect (h : Walks next l none) {turns : ℕ} (hturns : l.length ≤ turns) :
    collect next turns l.head? = some l := by
  induction l generalizing turns with
  | nil => cases turns <;> rfl
  | cons a l ih =>
    obtain ⟨turns, rfl⟩ := Nat.exists_eq_add_one.mpr (Nat.zero_lt_of_lt hturns)
    rw [head?_cons, Lib.collect, h.1, or_none, bind_some, ih h.2 (Nat.le_of_succ_le_succ hturns)]
    rfl

end ValProofs.Lib
