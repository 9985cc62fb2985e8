import Mathlib.Algebra.Group.Nat.Defs
import Mathlib.Data.List.Nodup
import Mathlib.Data.List.Sort
import Mathlib.Logic.Function.Iterate
import Mathlib.Tactic.Common

/-!
Lists of records that are found by a key, the way C++ code keeps them: a record
is looked for from the front, changed in place, put in front when it is not
there, and erased where it is found. As long as no two records have the same
key, what is in the list afterwards can be said without its order.

A number in a record may count in a `double`. From `2 ^ 53` on the next number is
not one of its values, and adding one gives the same value again.
-/

namespace ValProofs.Lib

open List Function

/-- One more, for a number that a `double` counts. -/
def addOne (n : ℕ) : ℕ := if n < 2 ^ 53 then n + 1 else n

/-- What has been counted after `n + 1` steps. -/
theorem addOne_min (n : ℕ) : addOne (min n (2 ^ 53)) = min (n + 1) (2 ^ 53) := by
  rw [addOne]
  split <;> omega

theorem addOne_of_lt {n : ℕ} (h : n < 2 ^ 53) : addOne n = n + 1 := if_pos h

variable {α κ : Type} [DecidableEq κ]

/-- The first record with the key of `r` becomes `r`. -/
def replaceFirst (key : α → κ) (r : α) : List α → List α
  | [] => []
  | x :: l => if key x = key r then r :: l else x :: replaceFirst key r l

/-- `r` takes the place of the record with its key, or is put in front. -/
def upsert (key : α → κ) (r : α) (l : List α) : List α :=
  if key r ∈ l.map key then replaceFirst key r l else r :: l

/-- Without the first record that has the key. -/
def eraseKey (key : α → κ) (k : κ) (l : List α) : List α := l.eraseP fun x => key x = k

variable {key : α → κ} {r x : α} {k : κ} {l : List α}

/-- A record is found under its key. -/
theorem find?_key_eq_some_iff (hnodup : (l.map key).Nodup) :
    (l.find? fun y => key y = k) = some x ↔ x ∈ l ∧ key x = k := by
  constructor
  · intro hfind
    exact ⟨mem_of_find?_eq_some hfind, by simpa using find?_some hfind⟩
  · rintro ⟨hmem, rfl⟩
    cases hfind : l.find? fun y => key y = key x with
    | none => simpa using find?_eq_none.mp hfind x hmem
    | some found =>
      have hkey : key found = key x := by simpa using find?_some hfind
      rw [inj_on_of_nodup_map hnodup (mem_of_find?_eq_some hfind) hmem hkey]

theorem map_replaceFirst : (replaceFirst key r l).map key = l.map key := by
  induction l with
  | nil => rfl
  | cons y l ih =>
    rw [replaceFirst]
    split
    · rename_i hkey
      simp [hkey]
    · simp [ih]

theorem mem_replaceFirst (hnodup : (l.map key).Nodup) (hmem : key r ∈ l.map key) :
    x ∈ replaceFirst key r l ↔ x = r ∨ (x ∈ l ∧ key x ≠ key r) := by
  induction l with
  | nil => simp at hmem
  | cons y l ih =>
    rw [map_cons, nodup_cons] at hnodup
    rw [replaceFirst]
    by_cases hkey : key y = key r
    · rw [if_pos hkey]
      have hne : ∀ z ∈ l, key z ≠ key r := fun z hz hzr =>
        hnodup.1 (hkey ▸ hzr ▸ mem_map_of_mem hz)
      simp only [mem_cons]
      constructor
      · rintro (rfl | hx)
        · exact .inl rfl
        · exact .inr ⟨.inr hx, hne x hx⟩
      · rintro (rfl | ⟨rfl | hx, hxr⟩)
        · exact .inl rfl
        · exact absurd hkey hxr
        · exact .inr hx
    · rw [if_neg hkey]
      have hmem' : key r ∈ l.map key := by
        rcases mem_cons.mp hmem with hyr | hmem'
        · exact absurd hyr.symm hkey
        · exact hmem'
      simp only [mem_cons, ih hnodup.2 hmem']
      constructor
      · rintro (rfl | rfl | ⟨hx, hxr⟩)
        · exact .inr ⟨.inl rfl, hkey⟩
        · exact .inl rfl
        · exact .inr ⟨.inr hx, hxr⟩
      · rintro (rfl | ⟨rfl | hx, hxr⟩)
        · exact .inr (.inl rfl)
        · exact .inl rfl
        · exact .inr (.inr ⟨hx, hxr⟩)

theorem mem_upsert (hnodup : (l.map key).Nodup) :
    x ∈ upsert key r l ↔ x = r ∨ (x ∈ l ∧ key x ≠ key r) := by
  unfold upsert
  split
  · rename_i hmem
    exact mem_replaceFirst hnodup hmem
  · rename_i hmem
    rw [mem_cons]
    refine or_congr_right ⟨fun hx => ⟨hx, fun hkey => hmem ?_⟩, fun hx => hx.1⟩
    exact hkey ▸ mem_map_of_mem hx

/-- Whatever the keys, nothing but `r` is new. -/
theorem of_mem_upsert (h : x ∈ upsert key r l) : x = r ∨ x ∈ l := by
  rw [upsert] at h
  split at h
  · clear * - h
    induction l with
    | nil => exact .inr h
    | cons y l ih =>
      rw [replaceFirst] at h
      split at h
      · rcases mem_cons.mp h with rfl | h
        · exact .inl rfl
        · exact .inr (mem_cons_of_mem _ h)
      · rcases mem_cons.mp h with rfl | h
        · exact .inr mem_cons_self
        · rcases ih h with rfl | h
          · exact .inl rfl
          · exact .inr (mem_cons_of_mem _ h)
  · exact mem_cons.mp h

theorem nodup_upsert (hnodup : (l.map key).Nodup) : ((upsert key r l).map key).Nodup := by
  unfold upsert
  split
  · rwa [map_replaceFirst]
  · rename_i hmem
    rw [map_cons, nodup_cons]
    exact ⟨hmem, hnodup⟩

theorem mem_eraseKey (hnodup : (l.map key).Nodup) : x ∈ eraseKey key k l ↔ x ∈ l ∧ key x ≠ k := by
  unfold eraseKey
  induction l with
  | nil => simp
  | cons y l ih =>
    rw [map_cons, nodup_cons] at hnodup
    by_cases hkey : key y = k
    · rw [eraseP_cons_of_pos (by simpa using hkey)]
      constructor
      · intro hx
        refine ⟨mem_cons_of_mem _ hx, fun hxk => hnodup.1 ?_⟩
        exact hkey ▸ hxk ▸ mem_map_of_mem hx
      · rintro ⟨hx, hxk⟩
        rcases mem_cons.mp hx with rfl | hx
        · exact absurd hkey hxk
        · exact hx
    · rw [eraseP_cons_of_neg (by simpa using hkey), mem_cons, mem_cons, ih hnodup.2]
      constructor
      · rintro (rfl | ⟨hx, hxk⟩)
        · exact ⟨.inl rfl, hkey⟩
        · exact ⟨.inr hx, hxk⟩
      · rintro ⟨rfl | hx, hxk⟩
        · exact .inl rfl
        · exact .inr ⟨hx, hxk⟩

/-- A record is what is found under its own key. -/
theorem find?_key_of_mem (hnodup : (l.map key).Nodup) (hmem : x ∈ l) :
    l.find? (fun y => key y == key x) = some x := by
  induction l with
  | nil => cases hmem
  | cons y l ih =>
    rw [map_cons, nodup_cons] at hnodup
    by_cases hkey : key y = key x
    · have hyx : y = x := by
        rcases mem_cons.mp hmem with rfl | hmem
        · rfl
        · exact absurd (hkey ▸ mem_map_of_mem hmem) hnodup.1
      simp [hyx]
    · have hmem' : x ∈ l := by
        rcases mem_cons.mp hmem with rfl | hmem
        · exact absurd rfl hkey
        · exact hmem
      rw [find?_cons_of_neg (by simpa using hkey)]
      exact ih hnodup.2 hmem'

theorem find?_replaceFirst_self (h : key r ∈ l.map key) :
    ((replaceFirst key r l).find? fun y => key y = key r) = some r := by
  induction l with
  | nil => cases h
  | cons y l ih =>
    rw [replaceFirst]
    split
    · exact find?_cons_of_pos (decide_eq_true rfl)
    · rename_i hne
      rw [find?_cons_of_neg (by simpa using hne)]
      refine ih ?_
      rcases mem_cons.mp h with hkey | hmem
      · exact absurd hkey.symm hne
      · exact hmem

theorem find?_replaceFirst_of_ne (h : k ≠ key r) :
    ((replaceFirst key r l).find? fun y => key y = k) = l.find? fun y => key y = k := by
  induction l with
  | nil => rfl
  | cons y l ih =>
    rw [replaceFirst]
    split
    · rename_i hkey
      rw [find?_cons_of_neg (by simpa using h.symm),
        find?_cons_of_neg (by simpa [hkey] using h.symm)]
    · rw [find?_cons, find?_cons, ih]

theorem eraseKey_cons_self (x : α) (l : List α) : eraseKey key (key x) (x :: l) = l :=
  eraseP_cons_of_pos (decide_eq_true rfl)

theorem find?_eraseKey_self (hnodup : (l.map key).Nodup) :
    ((eraseKey key k l).find? fun y => key y = k) = none := by
  refine find?_eq_none.mpr fun y hy => ?_
  simpa using ((mem_eraseKey hnodup).mp hy).2

theorem find?_eraseKey_of_ne {k' : κ} (h : k' ≠ k) :
    ((eraseKey key k l).find? fun y => key y = k') = l.find? fun y => key y = k' := by
  induction l with
  | nil => rfl
  | cons y l ih =>
    by_cases hkey : key y = k
    · subst hkey
      rw [eraseKey_cons_self, find?_cons_of_neg (by simpa using h.symm)]
    · rw [eraseKey, eraseP_cons_of_neg (by simpa using hkey), find?_cons, find?_cons, ← ih]
      rfl

theorem eraseKey_sublist : (eraseKey key k l).Sublist l := eraseP_sublist

/-- What is found is what is erased. -/
theorem perm_eraseKey (h : (l.find? fun y => key y = k) = some x) :
    (x :: eraseKey key k l).Perm l := by
  obtain ⟨hx, before, after, rfl, hbefore⟩ := find?_eq_some_iff_append.mp h
  have hnone : ∀ y ∈ before, ¬ decide (key y = k) = true := by simpa using hbefore
  rw [eraseKey, eraseP_append_right _ hnone, eraseP_cons_of_pos (by simpa using hx)]
  exact perm_middle.symm

theorem length_eraseKey (h : k ∈ l.map key) : (eraseKey key k l).length = l.length - 1 := by
  obtain ⟨x, hx, rfl⟩ := mem_map.mp h
  exact length_eraseP_of_mem hx (decide_eq_true rfl)

theorem eraseKey_of_not_mem (h : k ∉ l.map key) : eraseKey key k l = l := by
  refine eraseP_of_forall_not fun x hx => ?_
  rw [decide_eq_true_eq]
  exact fun hkey => h (hkey ▸ mem_map_of_mem hx)

theorem mem_map_eraseKey (hnodup : (l.map key).Nodup) {k' : κ} :
    k' ∈ (eraseKey key k l).map key ↔ k' ∈ l.map key ∧ k' ≠ k := by
  simp only [mem_map, mem_eraseKey hnodup]
  constructor
  · rintro ⟨x, ⟨hx, hne⟩, rfl⟩
    exact ⟨⟨x, hx, rfl⟩, hne⟩
  · rintro ⟨⟨x, hx, rfl⟩, hne⟩
    exact ⟨x, ⟨hx, hne⟩, rfl⟩

omit [DecidableEq κ] in
/-- In the order of a number, a record that is put behind those with the same number. -/
theorem pairwise_orderedInsert {rank : α → ℕ} (hl : l.Pairwise fun a b => rank a ≤ rank b) (r : α) :
    (l.orderedInsert (fun a b => rank a < rank b) r).Pairwise fun a b => rank a ≤ rank b := by
  induction l with
  | nil => exact pairwise_singleton _ r
  | cons first l ih =>
    obtain ⟨hfirst, hl'⟩ := pairwise_cons.mp hl
    rw [orderedInsert_cons]
    split
    · rename_i hlt
      refine pairwise_cons.mpr ⟨fun x hx => ?_, hl⟩
      rcases mem_cons.mp hx with rfl | hx
      · exact hlt.le
      · exact hlt.le.trans (hfirst x hx)
    · rename_i hge
      refine pairwise_cons.mpr ⟨fun x hx => ?_, ih hl'⟩
      rcases (mem_orderedInsert _).mp hx with rfl | hx
      · exact not_lt.mp hge
      · exact hfirst x hx

/-! ### Erasing again and again -/

theorem length_iterate_eraseP_le (p : α → Bool) (n : ℕ) (l : List α) :
    ((eraseP p)^[n] l).length ≤ l.length := by
  induction n generalizing l with
  | zero => exact Nat.le_refl _
  | succ n ih => exact Nat.le_trans (ih (l.eraseP p)) length_eraseP_le

theorem iterate_eraseP_eq_self_iff {p : α → Bool} {n : ℕ} :
    (eraseP p)^[n] l = l ↔ n = 0 ∨ ∀ b ∈ l, p b = false := by
  constructor
  · intro heq
    cases n with
    | zero => exact .inl rfl
    | succ n =>
      refine .inr fun b hb => ?_
      by_contra hpb
      have hlt : (l.eraseP p).length + 1 = l.length := by
        rw [length_eraseP_of_mem hb (by simpa using hpb)]
        have := length_pos_of_mem hb
        omega
      have hle := length_iterate_eraseP_le p n (l.eraseP p)
      rw [← iterate_succ_apply, heq] at hle
      omega
  · rintro (rfl | hnone)
    · rfl
    · refine iterate_fixed (eraseP_of_forall_not fun b hb => ?_) n
      rw [hnone b hb]
      exact Bool.false_ne_true

/-- A record that is put in front is the first to go. -/
theorem iterate_eraseP_cons_eq_iff {p : α → Bool} (hx : p x = true) {n : ℕ} :
    (eraseP p)^[n] (x :: l) = l ↔ n = 1 ∨ 1 ≤ n ∧ ∀ b ∈ l, p b = false := by
  cases n with
  | zero => simp
  | succ n =>
    rw [iterate_succ_apply, eraseP_cons_of_pos hx, iterate_eraseP_eq_self_iff]
    simp

end ValProofs.Lib
