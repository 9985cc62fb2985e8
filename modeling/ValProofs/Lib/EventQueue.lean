import Mathlib.Algebra.Order.BigOperators.Group.List
import Mathlib.Algebra.Order.Ring.Nat
import Mathlib.Data.List.Nodup
import Mathlib.Tactic.Common
import ValProofs.Lib.System

/-!
An event scheduler seen from its clients: a set of pending callbacks, each
under an identifier that is never given out twice. Scheduling adds a callback
under a fresh identifier, cancelling takes one away and does nothing when it
is no longer pending, and a firing takes the callback away and runs it.

When the pending callbacks fire is left open: a client proof has to cope with
every order.
-/

namespace ValProofs.Lib

open List

/-- The pending callbacks with their identifiers. -/
structure EventQueue (α : Type) where
  pending : List (ℕ × α)
  nextId : ℕ
  /-- Identifiers are handed out in increasing order. -/
  fresh : ∀ e ∈ pending, e.1 < nextId
  /-- No two pending callbacks share an identifier. -/
  nodup : (pending.map Prod.fst).Nodup

namespace EventQueue

variable {α : Type}

def empty : EventQueue α where
  pending := []
  nextId := 0
  fresh := by simp
  nodup := by simp

/-- Adds the callback under the identifier `q.nextId`. -/
def schedule (q : EventQueue α) (a : α) : EventQueue α where
  pending := q.pending ++ [(q.nextId, a)]
  nextId := q.nextId + 1
  fresh := by
    intro e he
    rcases List.mem_append.mp he with he | he
    · exact Nat.lt_succ_of_lt (q.fresh e he)
    · rw [List.mem_singleton.mp he]
      exact Nat.lt_succ_self _
  nodup := by
    rw [List.map_append, List.nodup_append]
    refine ⟨q.nodup, by simp, ?_⟩
    intro i hi j hj
    obtain ⟨e, he, rfl⟩ := List.mem_map.mp hi
    simp only [List.map_cons, List.map_nil, List.mem_singleton] at hj
    exact hj ▸ Nat.ne_of_lt (q.fresh e he)

/-- Takes the callback with the identifier away, if it is still pending. -/
def cancel (q : EventQueue α) (id : ℕ) : EventQueue α where
  pending := q.pending.filter fun e => e.1 ≠ id
  nextId := q.nextId
  fresh := fun e he => q.fresh e (List.mem_filter.mp he).1
  nodup := q.nodup.sublist (List.filter_sublist.map _)

/-- The callback `a` is pending under the identifier. -/
def Pending (q : EventQueue α) (id : ℕ) (a : α) : Prop := (id, a) ∈ q.pending

/-- The callback a firing of the identifier runs. -/
def callback? (q : EventQueue α) (id : ℕ) : Option α :=
  (q.pending.find? fun e => e.1 = id).map Prod.snd

variable {id : ℕ} {a : α}

@[simp] theorem not_pending_empty : ¬ (empty : EventQueue α).Pending id a := by
  simp [Pending, empty]

variable {q : EventQueue α} {b : α}

@[simp] theorem pending_schedule :
    (q.schedule a).Pending id b ↔ q.Pending id b ∨ (id = q.nextId ∧ b = a) := by
  simp [Pending, schedule]

@[simp] theorem pending_cancel {id' : ℕ} :
    (q.cancel id).Pending id' b ↔ q.Pending id' b ∧ id' ≠ id := by
  simp [Pending, cancel]

@[simp] theorem nextId_schedule (q : EventQueue α) (a : α) :
    (q.schedule a).nextId = q.nextId + 1 := rfl

@[simp] theorem nextId_cancel (q : EventQueue α) (id : ℕ) :
    (q.cancel id).nextId = q.nextId := rfl

theorem Pending.lt (h : q.Pending id a) : id < q.nextId :=
  q.fresh _ h

/-- An identifier is pending for at most one callback. -/
theorem Pending.unique (ha : q.Pending id a) (hb : q.Pending id b) : a = b := by
  have h := inj_on_of_nodup_map q.nodup ha hb rfl
  exact (Prod.mk.inj h).2

theorem callback?_eq_some : q.callback? id = some a ↔ q.Pending id a := by
  constructor
  · intro h
    obtain ⟨⟨i, b⟩, hfind, rfl⟩ := Option.map_eq_some_iff.mp h
    have hid : i = id := by simpa using find?_some hfind
    exact hid ▸ mem_of_find?_eq_some hfind
  · intro h
    cases hfind : q.pending.find? fun e => e.1 = id with
    | none =>
      have := find?_eq_none.mp hfind (id, a) h
      simp at this
    | some e =>
      obtain ⟨i, b⟩ := e
      have hid : i = id := by simpa using find?_some hfind
      have hmem : q.Pending id b := hid ▸ mem_of_find?_eq_some hfind
      simp [callback?, hfind, hmem.unique h]

/-! ### Runs -/

/-- What happens to a scheduler. -/
inductive Op (α : Type)
  | schedule (a : α)
  | cancel (id : ℕ)
  | fire (id : ℕ)

/-- Callbacks fire in any order. -/
def system : System (EventQueue α) (Op α) where
  init q := q = empty
  guard q
    | .fire id => ∃ a, q.Pending id a
    | _ => True
  next q
    | .schedule a => q.schedule a
    | .cancel id => q.cancel id
    | .fire id => q.cancel id

/-- Several callbacks are cancelled one after the other. -/
theorem exists_run_cancel (q : EventQueue α) (ids : List ℕ) :
    ∃ q', system.Run q (ids.map .cancel) q' ∧ q'.nextId = q.nextId ∧
      ∀ id a, q'.Pending id a ↔ q.Pending id a ∧ id ∉ ids := by
  induction ids generalizing q with
  | nil => exact ⟨q, .nil q, rfl, fun id a => by simp⟩
  | cons id ids ih =>
    obtain ⟨q', hrun, hnext, hpend⟩ := ih (q.cancel id)
    have hfirst : system.Run q [.cancel id] (q.cancel id) := .single (M := system) trivial
    refine ⟨q', hfirst.append hrun, hnext, fun id' a => ?_⟩
    rw [hpend, pending_cancel, mem_cons, not_or, and_assoc]

/-! ### Weighing the pending callbacks -/

/-- The sum of the weights of the pending callbacks. -/
def weight (f : α → ℕ) (q : EventQueue α) : ℕ := (q.pending.map fun e => f e.2).sum

variable {f : α → ℕ}

/-- The weight depends on what is pending only, not on the order. -/
theorem weight_congr {f' : α → ℕ} {q' : EventQueue α}
    (hpend : ∀ id a, q.Pending id a ↔ q'.Pending id a) (hf : ∀ id a, q.Pending id a → f a = f' a) :
    q.weight f = q'.weight f' := by
  have hperm : q.pending.Perm q'.pending := by
    refine (perm_ext_iff_of_nodup (q.nodup.of_map _) (q'.nodup.of_map _)).mpr ?_
    rintro ⟨id, a⟩
    exact hpend id a
  calc
    q.weight f = (q.pending.map fun e => f' e.2).sum := by
      rw [weight, map_congr_left fun e he => hf e.1 e.2 he]
    _ = q'.weight f' := (hperm.map _).sum_eq

theorem weight_schedule (f : α → ℕ) (q : EventQueue α) (a : α) :
    (q.schedule a).weight f = q.weight f + f a := by
  simp [weight, schedule]

theorem weight_cancel (h : q.Pending id a) : (q.cancel id).weight f + f a = q.weight f := by
  -- Scheduling the callback again gives back what was pending, but for its number.
  have hperm : q.pending.Perm ((id, a) :: (q.cancel id).pending) := by
    have hnodup : ((id, a) :: (q.cancel id).pending).Nodup := by
      refine nodup_cons.mpr ⟨?_, (q.cancel id).nodup.of_map _⟩
      intro hmem
      exact (pending_cancel.mp hmem).2 rfl
    refine (perm_ext_iff_of_nodup (q.nodup.of_map _) hnodup).mpr ?_
    rintro ⟨i, b⟩
    show q.Pending i b ↔ _
    rw [mem_cons]
    constructor
    · intro hb
      by_cases hi : i = id
      · subst hi
        exact .inl (by rw [hb.unique h])
      · exact .inr (pending_cancel.mpr ⟨hb, hi⟩)
    · rintro (heq | hmem)
      · cases heq
        exact h
      · exact (pending_cancel.mp hmem).1
  rw [weight, weight, (hperm.map _).sum_eq, map_cons, sum_cons, Nat.add_comm]

theorem weight_le {k : ℕ} (h : ∀ id a, q.Pending id a → f a ≤ k) :
    q.weight f ≤ q.pending.length * k := by
  have hsum := sum_le_card_nsmul (q.pending.map fun e => f e.2) k (by
    intro n hn
    obtain ⟨e, he, rfl⟩ := mem_map.mp hn
    exact h e.1 e.2 he)
  simpa [weight] using hsum

end EventQueue

end ValProofs.Lib
