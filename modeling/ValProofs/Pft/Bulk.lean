import Mathlib.Data.List.Perm.Subperm
import ValProofs.Pft.Change

/-!
The Interests of a list of nonces, found and removed in one go.

The search stops when it has as many entries as there are nonces. This is right only if an entry
is never found twice and no two entries have the same nonce: what has been found is then as long
as the list at most, and when it is as long there is nothing more to be found.
-/

namespace ValProofs.Pft

open Lib List

namespace Pending

/-- An Interest entry with a nonce of the list. -/
def carries (s : Pending) (nonceList : List Nonce) (p : ℕ) : Bool :=
  match (s.heap p).valPkt.payload with
  | .interest i => decide (i.nonce ∈ nonceList)
  | _ => false

variable {s : Pending} {nonceList : List Nonce}

theorem carries_iff {p : ℕ} :
    s.carries nonceList p = true ↔
      ∃ i, (s.heap p).valPkt.payload = .interest i ∧ i.nonce ∈ nonceList := by
  rw [carries]
  cases (s.heap p).valPkt.payload <;> simp

/-- An entry is found once. -/
theorem map_noncesOf (hnodup : nonceList.Nodup) (p : ℕ) :
    (s.noncesOf nonceList p).map (fun _ => p) = [p].filter (s.carries nonceList) := by
  rw [noncesOf, filter_singleton, carries]
  cases (s.heap p).valPkt.payload with
  | notSet | data d => rfl
  | interest i =>
    dsimp only
    rw [map_const', ← countP_eq_length_filter]
    have hcount : nonceList.countP (fun nonce => i.nonce == nonce) = nonceList.count i.nonce :=
      countP_congr fun nonce _ => by rw [BEq.comm]
    rw [hcount, Nodup.count hnodup]
    by_cases hmem : i.nonce ∈ nonceList <;> simp [hmem]

/-- The nonce of an Interest entry. -/
def nonceOf (s : Pending) (p : ℕ) : Nonce :=
  match (s.heap p).valPkt.payload with
  | .interest i => i.nonce
  | _ => 0

theorem nodup_nonceOf {table : List ℕ} (h : s.NoMatch table) :
    ((table.filter (s.carries nonceList)).map s.nonceOf).Nodup := by
  refine pairwise_map.mpr ((h.filter (s.carries nonceList)).imp_of_mem ?_)
  intro p q hp hq hpq hsame
  obtain ⟨i, hi, -⟩ := carries_iff.mp (of_mem_filter hp)
  obtain ⟨j, hj, -⟩ := carries_iff.mp (of_mem_filter hq)
  rw [nonceOf, hi, nonceOf, hj] at hsame
  exact hpq ((ValPacket.sameNdnPacket_interest hi).mpr ⟨j, hj, hsame⟩)

theorem length_filter_carries_le {table : List ℕ} (h : s.NoMatch table) :
    (table.filter (s.carries nonceList)).length ≤ nonceList.length := by
  have hsub : (table.filter (s.carries nonceList)).map s.nonceOf ⊆ nonceList := by
    intro nonce hnonce
    obtain ⟨p, hp, rfl⟩ := mem_map.mp hnonce
    obtain ⟨i, hi, hmem⟩ := carries_iff.mp (of_mem_filter hp)
    rwa [nonceOf, hi]
  have hle := (subperm_of_subset (nodup_nonceOf h) hsub).length_le
  rwa [length_map] at hle

/-- The early exit loses nothing. -/
theorem findMatchLoop_eq (hnodup : nonceList.Nodup) (done rest : List ℕ)
    (hle : ((done ++ rest).filter (s.carries nonceList)).length ≤ nonceList.length) :
    s.findMatchLoop nonceList rest (done.filter (s.carries nonceList)) =
      (done ++ rest).filter (s.carries nonceList) := by
  induction rest generalizing done with
  | nil =>
    rw [append_nil]
    rfl
  | cons p rest ih =>
    rw [append_cons] at hle ⊢
    rw [findMatchLoop, map_noncesOf hnodup, ← filter_append]
    split
    · rename_i hlength
      rw [filter_append (done ++ [p])] at hle ⊢
      rw [length_append, hlength] at hle
      have hnone : rest.filter (s.carries nonceList) = [] := length_eq_zero_iff.mp (by omega)
      rw [hnone, append_nil]
    · exact ih (done ++ [p]) hle

theorem findMatchByNonceList_eq (hnodup : nonceList.Nodup) (h : s.NoMatch s.table) :
    s.findMatchByNonceList nonceList = s.table.filter (s.carries nonceList) :=
  findMatchLoop_eq hnodup [] s.table (length_filter_carries_le h)

/-- The packet of an Interest entry matches this entry only. -/
theorem NoMatch.isMatch_iff (h : s.NoMatch s.table) {p : ℕ} (hp : p ∈ s.table)
    (hcarries : s.carries nonceList p = true) :
    ∀ q ∈ s.table, s.isMatch (s.heap p).valPkt q = true ↔ q = p := by
  intro q hq
  have hself : s.isMatch (s.heap p).valPkt p = true := by
    obtain ⟨i, hi, -⟩ := carries_iff.mp hcarries
    exact (ValPacket.sameNdnPacket_interest hi).mpr ⟨i, hi, rfl⟩
  constructor
  · intro hmatch
    exact h.isMatch_unique hq hp hmatch hself
  · rintro rfl
    exact hself

/-- What is found are the Interest entries with a nonce of the list, in the order of the table
and each once, and what is left by the removals are the other entries, in their order. -/
theorem findMatchByNonceList_and_remove (h : s.NoMatch s.table)
    (hnItens : s.nItens = s.table.length) (hnodup : nonceList.Nodup) :
    s.findMatchByNonceList nonceList = s.table.filter (s.carries nonceList) ∧
      (s.findMatchByNonceList nonceList).Nodup ∧
      s.removeEntriesByMatchList (s.findMatchByNonceList nonceList) =
        { s with
          table := s.table.filter fun p => !s.carries nonceList p
          nItens := (s.table.filter fun p => !s.carries nonceList p).length } := by
  have hfound := findMatchByNonceList_eq hnodup h
  have hrest : (s.table.filter fun p => decide (p ∉ s.table.filter (s.carries nonceList))) =
      s.table.filter fun p => !s.carries nonceList p := by
    refine List.filter_congr fun p hp => ?_
    simp [hp]
  have hremove := removeEntriesByMatchList_eq s.table (s.table.filter (s.carries nonceList))
    (fun p hp => h.isMatch_iff (List.mem_of_mem_filter hp) (List.of_mem_filter hp))
    (fun q hq => hq) hnItens
  rw [hrest] at hremove
  rw [hfound]
  exact ⟨rfl, (nodup_nonceOf h).of_map s.nonceOf, hremove⟩

/-- Two Interests, with the nonces 7 and 9, and a Data between them. -/
def mixed : Pending where
  heap p := Entry.make
    ⟨⟨"", "", "", "", 0⟩,
      if p = 1 then .data ⟨["a"], ⟨⟨-1, none, []⟩, ⟨23, []⟩⟩, 0, [], none⟩
      else .interest ⟨["a"], if p = 0 then 7 else 9, ⟨false, []⟩, 4000, [], none⟩⟩ 0
  nextPtr := 3
  table := [0, 1, 2]
  nItens := 3
  queue := EventQueue.empty
  log := []

theorem findMatchByNonceList_and_remove_mixed :
    mixed.findMatchByNonceList [9, 5] = [2] ∧
      (mixed.findMatchByNonceList [9, 5]).Nodup ∧
      (mixed.removeEntriesByMatchList (mixed.findMatchByNonceList [9, 5])).table = [0, 1] := by
  obtain ⟨hfound, hnodup, hremove⟩ := findMatchByNonceList_and_remove (s := mixed)
    (show mixed.table.Pairwise fun p q =>
      ¬ (mixed.heap p).valPkt.sameNdnPacket (mixed.heap q).valPkt by decide) rfl
    (show [(9 : Nonce), 5].Nodup by decide)
  refine ⟨hfound.trans (by decide), hnodup, ?_⟩
  rw [hremove]
  decide

end Pending

end ValProofs.Pft
