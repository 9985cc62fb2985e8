import Mathlib.Data.Finset.Card
import Mathlib.Tactic.Common

/-!
Collecting the numbered parts of a whole.

Parts arrive in any order and any number of times. A part that is held already
is thrown away; when all `n` parts are there the whole is complete, and the
collector starts again with nothing. Two facts about a sequence of arrivals are
of interest: if every part arrives then the whole gets complete, and `n` parts
are used up each time it does.
-/

namespace ValProofs.Lib.Collector

open List

/-- One part arrives: what is held afterwards, and whether that completed the
whole. -/
def step (n : ℕ) (held : Finset ℕ) (i : ℕ) : Finset ℕ × Bool :=
  if i ∈ held then (held, false)
  else if (insert i held).card = n then (∅, true)
  else (insert i held, false)

/-- How often the whole gets complete. -/
def completions (n : ℕ) : Finset ℕ → List ℕ → ℕ
  | _, [] => 0
  | held, i :: is => (step n held i).2.toNat + completions n (step n held i).1 is

variable {n : ℕ} {held : Finset ℕ} {i : ℕ} {is : List ℕ}

theorem step_of_mem (h : i ∈ held) : step n held i = (held, false) := if_pos h

theorem step_of_card (hi : i ∉ held) (h : (insert i held).card = n) :
    step n held i = (∅, true) := by
  rw [step, if_neg hi, if_pos h]

theorem completions_of_mem (h : i ∈ held) :
    completions n held (i :: is) = completions n held is := by
  rw [completions, step_of_mem h, Bool.toNat_false, Nat.zero_add]

theorem completions_of_card (hi : i ∉ held) (h : (insert i held).card = n) :
    completions n held (i :: is) = 1 + completions n ∅ is := by
  rw [completions, step_of_card hi h, Bool.toNat_true]

theorem completions_of_card_ne (hi : i ∉ held) (h : (insert i held).card ≠ n) :
    completions n held (i :: is) = completions n (insert i held) is := by
  rw [completions, step, if_neg hi, if_neg h, Bool.toNat_false, Nat.zero_add]

/-- **If every part that is not held arrives, the whole gets complete.** -/
theorem completions_pos (hincomplete : held.card < n) (hheld : ∀ k ∈ held, k < n)
    (his : ∀ k ∈ is, k < n) (hall : ∀ k < n, k ∈ held ∨ k ∈ is) : 0 < completions n held is := by
  induction is generalizing held with
  | nil =>
    -- nothing arrives any more, so everything would have to be held
    have hsub : Finset.range n ⊆ held := fun k hk =>
      (hall k (Finset.mem_range.mp hk)).resolve_right not_mem_nil
    have := Finset.card_le_card hsub
    rw [Finset.card_range] at this
    omega
  | cons i is ih =>
    obtain ⟨hi, his⟩ := forall_mem_cons.mp his
    by_cases hmem : i ∈ held
    · rw [completions_of_mem hmem]
      refine ih hincomplete hheld his fun k hk => ?_
      obtain h | h := hall k hk
      · exact .inl h
      · obtain rfl | h := mem_cons.mp h
        · exact .inl hmem
        · exact .inr h
    · by_cases hcard : (insert i held).card = n
      · rw [completions_of_card hmem hcard]
        omega
      · rw [completions_of_card_ne hmem hcard]
        have hheld' : ∀ k ∈ insert i held, k < n := by
          intro k hk
          obtain rfl | hk := Finset.mem_insert.mp hk
          · exact hi
          · exact hheld k hk
        refine ih ?_ hheld' his fun k hk => ?_
        · have := Finset.card_insert_of_notMem hmem
          omega
        · obtain h | h := hall k hk
          · exact .inl (Finset.mem_insert_of_mem h)
          · obtain rfl | h := mem_cons.mp h
            · exact .inl (Finset.mem_insert_self ..)
            · exact .inr h

/-- **Each completion takes `n` of the parts that were held or arrived.** -/
theorem completions_mul_le (n : ℕ) (held : Finset ℕ) (is : List ℕ) :
    completions n held is * n ≤ held.card + is.length := by
  induction is generalizing held with
  | nil => simp [completions]
  | cons i is ih =>
    rw [length_cons]
    by_cases hmem : i ∈ held
    · have := ih held
      rw [completions_of_mem hmem]
      omega
    · have hinsert := Finset.card_insert_of_notMem hmem
      by_cases hcard : (insert i held).card = n
      · have := ih ∅
        rw [completions_of_card hmem hcard, Nat.add_mul, Nat.one_mul]
        rw [Finset.card_empty] at this
        omega
      · have := ih (insert i held)
        rw [completions_of_card_ne hmem hcard]
        omega

/-- **Each part once completes the whole once.** -/
theorem completions_of_perm (hn : 0 < n) (h : is.Perm (range n)) : completions n ∅ is = 1 := by
  have hpos : 0 < completions n ∅ is := by
    refine completions_pos (by simpa using hn) (by simp) (fun k hk => ?_) fun k hk => .inr ?_
    · exact mem_range.mp (h.mem_iff.mp hk)
    · exact h.mem_iff.mpr (mem_range.mpr hk)
  have hle := completions_mul_le n ∅ is
  rw [h.length_eq, length_range, Finset.card_empty, Nat.zero_add] at hle
  have hone : completions n ∅ is ≤ 1 := by
    refine Nat.le_of_mul_le_mul_right ?_ hn
    rwa [Nat.one_mul]
  omega

end ValProofs.Lib.Collector
