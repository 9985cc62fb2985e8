import ValProofs.Lib.System
import ValProofs.Nfd.Pit

/-!
The life of one PIT entry.

The list of nonces is kept beside the in-records. A record that is renewed leaves
its old nonce in the list, and a record that is deleted takes its last nonce with
it, so the list still covers the other records only as long as no two of them have
the same last nonce. What sees to that is the duplicate check of the incoming
Interest pipeline.
-/

namespace ValProofs.Pit.Entry

open Lib

/-- The nonces stay in the list. -/
def clearInRecords (entry : Entry) : Entry := { entry with inRecords := [] }

/-- What the pipelines do to the records of an entry. -/
inductive Op
  | incomingInterest (isPointToPoint isGeoFace : Bool) (now inFace : ℕ) (interest : Interest)
  | deleteInRecord (faceId : ℕ)
  | clearInRecords
  | insertOrUpdateOutRecord (now faceId : ℕ) (interest : Interest)
  | deleteOutRecord (faceId : ℕ)
  | setIncomingNack (faceId : ℕ)

def next (entry : Entry) : Op → Entry
  | .incomingInterest isPointToPoint isGeoFace now inFace interest =>
      if entry.hasDuplicateNonce isPointToPoint isGeoFace inFace interest then entry
      else entry.insertOrUpdateInRecord now inFace interest
  | .deleteInRecord faceId => entry.deleteInRecord faceId
  | .clearInRecords => entry.clearInRecords
  | .insertOrUpdateOutRecord now faceId interest =>
      entry.insertOrUpdateOutRecord now faceId interest
  | .deleteOutRecord faceId => entry.deleteOutRecord faceId
  | .setIncomingNack faceId => entry.setIncomingNack faceId

/-- An entry from its construction on. -/
def life : System Entry Op where
  init entry := ∃ id interest, entry = make id interest
  guard _ _ := True
  next := next

variable {entry : Entry}

/-- Nonces are compared with those of the records of other faces. On a
point-to-point face a nonce of its own record hides the others, but as long as no
two records have the same nonce there are none to hide. -/
theorem WellFormed.lastNonce_ne (h : entry.WellFormed) {isPointToPoint isGeoFace : Bool}
    {inFace : ℕ} {interest : Interest}
    (hdup : entry.hasDuplicateNonce isPointToPoint isGeoFace inFace interest = false) :
    ∀ r ∈ entry.inRecords, r.faceId ≠ inFace → r.lastNonce ≠ interest.nonce := by
  intro r hr hface hnonce
  have hother : (findDuplicateNonce entry interest.nonce inFace).inOther = true :=
    List.any_eq_true.mpr ⟨r, hr, by simp [hnonce, hface]⟩
  have hany : (findDuplicateNonce entry interest.nonce inFace).any = true := by
    simp [DuplicateNonce.any, hother]
  simp only [hasDuplicateNonce, hany, Bool.true_and] at hdup
  split at hdup
  · rw [Bool.not_eq_false'] at hdup
    obtain ⟨r', hr', hsame⟩ := List.any_eq_true.mp hdup
    simp only [Bool.and_eq_true, beq_iff_eq] at hsame
    exact hface (h.nonces r hr r' hr' (hnonce.trans hsame.1.symm) ▸ hsame.2)
  · cases hdup

theorem WellFormed.clearInRecords (h : entry.WellFormed) : entry.clearInRecords.WellFormed where
  faces := List.nodup_nil
  nonces _ hr := nomatch hr
  listed _ hr := nomatch hr
  nodup := h.nodup

theorem WellFormed.next (h : entry.WellFormed) (op : Op) : (entry.next op).WellFormed := by
  cases op with
  | incomingInterest isPointToPoint isGeoFace now inFace interest =>
    rw [Entry.next]
    split
    · exact h
    · rename_i hdup
      exact h.insertOrUpdateInRecord now (h.lastNonce_ne (Bool.eq_false_iff.mpr hdup))
  | deleteInRecord faceId => exact h.deleteInRecord faceId
  | clearInRecords => exact h.clearInRecords
  | insertOrUpdateOutRecord now faceId interest
  | deleteOutRecord faceId | setIncomingNack faceId => exact h.sameRecords ⟨rfl, rfl⟩

theorem wellFormed_of_reachable (h : life.Reachable entry) : entry.WellFormed := by
  refine h.invariant (I := WellFormed) ?_ fun entry op hentry _ => hentry.next op
  rintro _ ⟨id, interest, rfl⟩
  exact wellFormed_make id interest

/-- **The nonce list.** At any time it names no nonce twice and has the last nonce of
every in-record; the records of different faces have different ones, so that deleting
the record of one face leaves the other records, and their nonces in the list. -/
theorem nonceList_covers {entry : Entry} (h : life.Reachable entry) :
    entry.nonceList.Nodup ∧ (∀ r ∈ entry.inRecords, r.lastNonce ∈ entry.nonceList) ∧
    (∀ r ∈ entry.inRecords, ∀ r' ∈ entry.inRecords, r.faceId ≠ r'.faceId →
      r.lastNonce ≠ r'.lastNonce) ∧
    ∀ faceId, ∀ r ∈ entry.inRecords, r.faceId ≠ faceId →
      r ∈ (entry.deleteInRecord faceId).inRecords ∧
        r.lastNonce ∈ (entry.deleteInRecord faceId).nonceList := by
  have hwf := wellFormed_of_reachable h
  refine ⟨hwf.nodup, hwf.listed, fun r hr r' hr' hface hnonce => ?_, fun faceId r hr hface => ?_⟩
  · exact hface (congrArg InRecord.faceId (hwf.nonces r hr r' hr' hnonce))
  · have hmem := hwf.mem_deleteInRecord.mpr ⟨hr, hface⟩
    exact ⟨hmem, (hwf.deleteInRecord faceId).listed r hmem⟩

/-- The Interest with the nonce. -/
def asked (nonce : Nonce) : Interest := ⟨[], nonce, ⟨false, []⟩, 4000, [], none⟩

/-- Face 256 asks twice, and the nonce it used first comes from face 257. -/
def renewed : Entry :=
  [.incomingInterest true false 0 256 (asked 5), .incomingInterest true false 1 256 (asked 6),
    .incomingInterest false false 2 257 (asked 5)].foldl next (make 0 (asked 5))

theorem nonceList_covers_renewed :
    (renewed.nonceList = [5, 6] ∧ renewed.inRecords.map InRecord.faceId = [257, 256]) ∧
    renewed.nonceList.Nodup ∧ (∀ r ∈ renewed.inRecords, r.lastNonce ∈ renewed.nonceList) ∧
    (∀ r ∈ renewed.inRecords, ∀ r' ∈ renewed.inRecords, r.faceId ≠ r'.faceId →
      r.lastNonce ≠ r'.lastNonce) ∧
    ∀ faceId, ∀ r ∈ renewed.inRecords, r.faceId ≠ faceId →
      r ∈ (renewed.deleteInRecord faceId).inRecords ∧
        r.lastNonce ∈ (renewed.deleteInRecord faceId).nonceList := by
  refine ⟨by decide, nonceList_covers ?_⟩
  refine System.Reachable.foldl (.of_init ⟨0, asked 5, rfl⟩) ?_
  exact .cons trivial (.cons trivial (.cons trivial (.nil _)))

end ValProofs.Pit.Entry
