import Mathlib.Combinatorics.SimpleGraph.Connectivity.Connected
import Mathlib.Data.List.Dedup
import Mathlib.Logic.Relation

/-!
Sets of vertices that are connected by themselves.

A set that no edge leaves and whose vertices can all reach each other is connected, and a connected
set is either inside such a set or outside it. A set is connected as well if it falls into numbered
parts that are, and each part has an edge to the next.

The components of a graph are found by merging labels along its edges.
-/

namespace ValProofs.Lib

open SimpleGraph List

variable {V : Type*} {G : SimpleGraph V} {S T : Set V}

/-- No edge leaves the set. -/
def Closed (G : SimpleGraph V) (T : Set V) : Prop := ∀ ⦃u v⦄, G.Adj u v → u ∈ T → v ∈ T

theorem Closed.reachable_induce (h : Closed G T) {u v : V} (hu : u ∈ T) (huv : G.Reachable u v) :
    ∃ hv : v ∈ T, (G.induce T).Reachable ⟨u, hu⟩ ⟨v, hv⟩ := by
  obtain ⟨walk⟩ := huv
  induction walk with
  | nil => exact ⟨hu, .refl _⟩
  | cons hadj walk ih =>
    obtain ⟨hv, hreach⟩ := ih (h hadj hu)
    have hstep : (G.induce T).Adj ⟨_, hu⟩ ⟨_, h hadj hu⟩ := hadj
    exact ⟨hv, hstep.reachable.trans hreach⟩

theorem Closed.preconnected (h : Closed G T) (hreach : ∀ u ∈ T, ∀ v ∈ T, G.Reachable u v) :
    (G.induce T).Preconnected := by
  rintro ⟨u, hu⟩ ⟨v, hv⟩
  obtain ⟨_, huv⟩ := h.reachable_induce hu (hreach u hu v hv)
  exact huv

/-- A connected set that meets a closed one is inside it. -/
theorem Closed.subset (h : Closed G T) (hS : (G.induce S).Preconnected) {u : V} (huS : u ∈ S)
    (huT : u ∈ T) : S ⊆ T := by
  intro v hvS
  have huv : G.Reachable u v := (hS ⟨u, huS⟩ ⟨v, hvS⟩).map (Embedding.induce S).toHom
  exact (h.reachable_induce huT huv).1

theorem Closed.preconnected_inter (h : Closed G T) (hS : (G.induce S).Preconnected) :
    (G.induce (S ∩ T)).Preconnected := by
  rintro ⟨u, huS, huT⟩ ⟨v, hvS, hvT⟩
  have hle : S ≤ S ∩ T := Set.subset_inter Set.Subset.rfl (h.subset hS huS huT)
  exact (hS ⟨u, huS⟩ ⟨v, hvS⟩).map (induceHomOfLE G hle).toHom

/-- Parts that are connected, each with an edge to the next. -/
theorem preconnected_of_chain {c : V → ℕ} {n : ℕ}
    (hsame : ∀ u v : S, c u = c v → (G.induce S).Reachable u v) (hlt : ∀ v : S, c v < n)
    (hnext : ∀ i, i + 1 < n → ∃ u v : S, c u = i ∧ c v = i + 1 ∧ G.Adj u v) :
    (G.induce S).Preconnected := by
  -- along the parts, everything is reached from the first of them
  have hfirst : ∀ i < n, ∀ u v : S, c u = 0 → c v = i → (G.induce S).Reachable u v := by
    intro i
    induction i with
    | zero => exact fun _ u v hu hv => hsame u v (hu.trans hv.symm)
    | succ i ih =>
      intro hi u v hu hv
      obtain ⟨last, next, hlast, hnext', hadj⟩ := hnext i hi
      have hstep : (G.induce S).Adj last next := hadj
      exact ((ih (Nat.lt_of_succ_lt hi) u last hu hlast).trans hstep.reachable).trans
        (hsame next v (hnext'.trans hv.symm))
  intro u v
  obtain ⟨first, hzero⟩ : ∃ first : S, c first = 0 := by
    rcases Nat.eq_zero_or_pos (c u) with hu | hu
    · exact ⟨u, hu⟩
    · obtain ⟨first, -, hzero, -⟩ := hnext 0 (lt_of_le_of_lt hu (hlt u))
      exact ⟨first, hzero⟩
  exact (hfirst (c u) (hlt u) first u hzero rfl).symm.trans
    (hfirst (c v) (hlt v) first v hzero rfl)

/-! ### Merging labels -/

/-- What holds of all pairs holds of the classes, if it is an equivalence. -/
theorem eqvGen_le {r R : V → V → Prop} (hR : Equivalence R) (hle : ∀ a b, r a b → R a b) {u v : V}
    (h : Relation.EqvGen r u v) : R u v :=
  hR.eqvGen_iff.mp (h.mono hle)

section Labels

variable [DecidableEq V]

/-- The label of the second vertex is replaced by that of the first. -/
def merge (label : V → V) (pair : V × V) : V → V := fun v =>
  if label v = label pair.2 then label pair.1 else label v

/-- The labels after all pairs have been merged. -/
def labels (pairs : List (V × V)) : V → V := pairs.foldl merge id

theorem labels_eq_iff (pairs : List (V × V)) (u v : V) :
    labels pairs u = labels pairs v ↔ Relation.EqvGen (fun a b => (a, b) ∈ pairs) u v := by
  induction pairs using reverseRecOn generalizing u v with
  | nil =>
    constructor
    · rintro rfl
      exact .refl u
    · exact eqvGen_le eq_equivalence fun a b hab => absurd hab not_mem_nil
  | append_singleton pairs pair ih =>
    have hlabels : labels (pairs ++ [pair]) = merge (labels pairs) pair := by
      rw [labels, foldl_append]
      rfl
    have hmono : ∀ {a b}, labels pairs a = labels pairs b →
        Relation.EqvGen (fun a b => (a, b) ∈ pairs ++ [pair]) a b := fun {a b} h =>
      ((ih a b).mp h).mono fun _ _ hmem => mem_append_left _ hmem
    have hpair : Relation.EqvGen (fun a b => (a, b) ∈ pairs ++ [pair]) pair.1 pair.2 :=
      .rel _ _ (mem_append_right _ (mem_singleton_self _))
    rw [hlabels]
    constructor
    · intro h
      simp only [merge] at h
      split at h
      · rename_i hu
        split at h
        · rename_i hv
          exact hmono (hu.trans hv.symm)
        · exact ((hmono hu).trans _ _ _ hpair.symm).trans _ _ _ (hmono h)
      · split at h
        · rename_i hv
          exact ((hmono h).trans _ _ _ hpair).trans _ _ _ (hmono hv.symm)
        · exact hmono h
    · refine eqvGen_le (eq_equivalence.comap (merge (labels pairs) pair)) fun a b hab => ?_
      rcases mem_append.mp hab with hold | hnew
      · have hsame := (ih a b).mpr (.rel a b hold)
        simp [Function.onFun, merge, hsame]
      · obtain rfl := mem_singleton.mp hnew
        simp [Function.onFun, merge]

/-- Along the edges of a graph the labels are those of its components. -/
theorem labels_eq_iff_reachable {pairs : List (V × V)} (hadj : ∀ u v, G.Adj u v → (u, v) ∈ pairs)
    (hpairs : ∀ u v, (u, v) ∈ pairs → G.Reachable u v) (u v : V) :
    labels pairs u = labels pairs v ↔ G.Reachable u v := by
  rw [labels_eq_iff]
  constructor
  · exact eqvGen_le G.reachable_is_equivalence hpairs
  · rintro ⟨walk⟩
    induction walk with
    | nil => exact .refl _
    | cons hstep walk ih => exact .trans _ _ _ (.rel _ _ (hadj _ _ hstep)) ih

end Labels

end ValProofs.Lib
