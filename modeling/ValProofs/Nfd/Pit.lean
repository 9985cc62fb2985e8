import Mathlib.Data.List.Dedup
import ValProofs.Lib.Keyed
import ValProofs.Packet

/-!
NFD's Pending Interest Table, with the list of nonces that the VAL extension
keeps in an entry. Records are identified by their face, and a table entry by
the number of the object that a `shared_ptr` points to.

Times are nanoseconds of the steady clock; lifetimes are milliseconds.
-/

namespace ValProofs.Pit

open Lib List

structure InRecord where
  faceId : ℕ
  /-- The nonce of the Interest that last renewed the record. -/
  lastNonce : Nonce
  expiry : ℕ
  deriving DecidableEq, Repr

structure OutRecord where
  faceId : ℕ
  lastNonce : Nonce
  expiry : ℕ
  /-- `getIncomingNack() != nullptr`. -/
  incomingNack : Bool
  deriving DecidableEq, Repr

structure Entry where
  /-- The object. -/
  id : ℕ
  interest : Interest
  inRecords : List InRecord
  outRecords : List OutRecord
  nonceList : List Nonce
  isSatisfied : Bool
  dataFreshnessPeriod : ℕ
  /-- When the scheduled `onInterestFinalize` runs, if one is scheduled. -/
  expiryTimer : Option ℕ
  deriving DecidableEq, Repr

def nanoseconds (milliseconds : ℕ) : ℕ := milliseconds * 1000000

namespace Entry

/-- The constructor puts the nonce into the list, but makes no in-record. -/
def make (id : ℕ) (interest : Interest) : Entry where
  id := id
  interest := interest
  inRecords := []
  outRecords := []
  nonceList := [interest.nonce]
  isSatisfied := false
  dataFreshnessPeriod := 0
  expiryTimer := none

def canMatch (entry : Entry) (interest : Interest) : Bool :=
  entry.interest.name == interest.name && entry.interest.selectors == interest.selectors

def insertOrUpdateInRecord (entry : Entry) (now faceId : ℕ) (interest : Interest) : Entry :=
  { entry with
    inRecords := upsert InRecord.faceId
      ⟨faceId, interest.nonce, now + nanoseconds interest.interestLifetime⟩ entry.inRecords
    nonceList :=
      if interest.nonce ∈ entry.nonceList then entry.nonceList
      else entry.nonceList ++ [interest.nonce] }

/-- The nonce of the record goes out of the list, too. -/
def deleteInRecord (entry : Entry) (faceId : ℕ) : Entry :=
  match entry.inRecords.find? fun r => r.faceId = faceId with
  | none => entry
  | some r =>
      { entry with
        inRecords := eraseKey InRecord.faceId faceId entry.inRecords
        nonceList := entry.nonceList.erase r.lastNonce }

/-- Returns a copy. -/
def getNonceList (entry : Entry) : List Nonce := entry.nonceList

def getOutRecord (entry : Entry) (faceId : ℕ) : Option OutRecord :=
  entry.outRecords.find? fun r => r.faceId = faceId

/-- Renewing an out-record does not clear its Nack. -/
def insertOrUpdateOutRecord (entry : Entry) (now faceId : ℕ) (interest : Interest) : Entry :=
  { entry with
    outRecords := upsert OutRecord.faceId
      ⟨faceId, interest.nonce, now + nanoseconds interest.interestLifetime,
        ((entry.getOutRecord faceId).map OutRecord.incomingNack).getD false⟩
      entry.outRecords }

def deleteOutRecord (entry : Entry) (faceId : ℕ) : Entry :=
  { entry with outRecords := eraseKey OutRecord.faceId faceId entry.outRecords }

def setIncomingNack (entry : Entry) (faceId : ℕ) : Entry :=
  { entry with
    outRecords := entry.outRecords.map fun r =>
      if r.faceId = faceId then { r with incomingNack := true } else r }

/-- When the last in-record expires; there is one when this is asked. -/
def lastExpiry (entry : Entry) : ℕ := (entry.inRecords.map InRecord.expiry).max?.getD 0

/-- The faces of the in-records that have not expired, which are collected in a
`std::set`. -/
def pendingDownstreams (entry : Entry) (now : ℕ) : List ℕ :=
  ((entry.inRecords.filter fun r => r.expiry > now).map InRecord.faceId).dedup

/-- The entry after its downstreams have been served in the order `order`. -/
def serve (order : List ℕ → List ℕ) (now : ℕ) (entry : Entry) : Entry :=
  (order (entry.pendingDownstreams now)).foldl deleteInRecord entry

end Entry

/-- Which records already have a nonce. -/
structure DuplicateNonce where
  inSame : Bool
  inOther : Bool
  outSame : Bool
  outOther : Bool
  deriving DecidableEq, Repr

namespace DuplicateNonce

/-- `dnw != DUPLICATE_NONCE_NONE`. -/
def any (dnw : DuplicateNonce) : Bool := dnw.inSame || dnw.inOther || dnw.outSame || dnw.outOther

end DuplicateNonce

def findDuplicateNonce (entry : Entry) (nonce : Nonce) (faceId : ℕ) : DuplicateNonce where
  inSame := entry.inRecords.any fun r => r.lastNonce == nonce && r.faceId == faceId
  inOther := entry.inRecords.any fun r => r.lastNonce == nonce && r.faceId != faceId
  outSame := entry.outRecords.any fun r => r.lastNonce == nonce && r.faceId == faceId
  outOther := entry.outRecords.any fun r => r.lastNonce == nonce && r.faceId != faceId

/-- The check of `onIncomingInterest` for an Interest from a face of the kind: a nonce that is seen
again is a loop, unless it comes again from the same point-to-point face; geofaces are not treated
as such. -/
def Entry.hasDuplicateNonce (entry : Entry) (isPointToPoint isGeoFace : Bool) (inFace : ℕ)
    (interest : Interest) : Bool :=
  let dnw := findDuplicateNonce entry interest.nonce inFace
  if isPointToPoint && !isGeoFace then dnw.any && !dnw.inSame else dnw.any

def hasPendingOutRecords (entry : Entry) (now : ℕ) : Bool :=
  entry.outRecords.any fun r => r.expiry ≥ now && !r.incomingNack

/-- The table. Objects are numbered and a number is not used again. -/
@[ext] structure Table where
  entries : List Entry
  nextId : ℕ
  fresh : ∀ entry ∈ entries, entry.id < nextId
  nodup : (entries.map Entry.id).Nodup

/-- The object `id` gets the fields of the entry. -/
def Entry.withId (entry : Entry) (id : ℕ) : Entry := { entry with id := id }

theorem Entry.withId_of_eq {entry : Entry} {id : ℕ} (h : entry.id = id) :
    entry.withId id = entry := by
  rw [← h]
  rfl

namespace Table

def empty : Table := ⟨[], 0, by simp, List.nodup_nil⟩

def get (pit : Table) (id : ℕ) : Option Entry := pit.entries.find? fun entry => entry.id = id

/-- Changes one object, which keeps its number. -/
def modify (pit : Table) (id : ℕ) (f : Entry → Entry) : Table where
  entries := pit.entries.map fun entry =>
    if entry.id = id then (f entry).withId entry.id else entry
  nextId := pit.nextId
  fresh := by
    intro entry hentry
    obtain ⟨old, hold, rfl⟩ := List.mem_map.mp hentry
    split
    · exact pit.fresh old hold
    · exact pit.fresh old hold
  nodup := by
    have hids : (pit.entries.map fun entry =>
        if entry.id = id then (f entry).withId entry.id else entry).map Entry.id =
          pit.entries.map Entry.id := by
      rw [List.map_map]
      refine List.map_congr_left fun entry _ => ?_
      simp only [Function.comp_apply]
      split <;> rfl
    rw [hids]
    exact pit.nodup

def find (pit : Table) (interest : Interest) : Option Entry :=
  pit.entries.find? fun entry => entry.canMatch interest

/-- The entry for the Interest, and whether it is new. -/
def insert (pit : Table) (interest : Interest) : Table × Entry × Bool :=
  match pit.find interest with
  | some entry => (pit, entry, false)
  | none =>
      ({ entries := pit.entries ++ [Entry.make pit.nextId interest]
         nextId := pit.nextId + 1
         fresh := by
           intro entry hentry
           rcases List.mem_append.mp hentry with hentry | hentry
           · exact Nat.lt_succ_of_lt (pit.fresh entry hentry)
           · rw [List.mem_singleton.mp hentry]
             exact Nat.lt_succ_self _
         nodup := by
           rw [List.map_append, List.nodup_append]
           refine ⟨pit.nodup, by simp, ?_⟩
           rintro id hid id' hid' rfl
           obtain ⟨entry, hentry, rfl⟩ := List.mem_map.mp hid
           have hlt := pit.fresh entry hentry
           have heq : entry.id = pit.nextId := by simpa [Entry.make] using hid'
           omega }, Entry.make pit.nextId interest, true)

def erase (pit : Table) (id : ℕ) : Table where
  entries := pit.entries.filter fun entry => entry.id ≠ id
  nextId := pit.nextId
  fresh entry hentry := pit.fresh entry (List.mem_filter.mp hentry).1
  nodup := pit.nodup.sublist (List.filter_sublist.map _)

variable {pit : Table} {id : ℕ} {entry : Entry}

theorem get_eq_some : pit.get id = some entry ↔ entry ∈ pit.entries ∧ entry.id = id :=
  find?_key_eq_some_iff pit.nodup

variable {f : Entry → Entry}

theorem mem_modify :
    entry ∈ (pit.modify id f).entries ↔ ∃ old ∈ pit.entries,
      entry = if old.id = id then (f old).withId old.id else old := by
  simp only [modify, mem_map, eq_comm]

/-- Two changes of one object, the first of which has kept its number. -/
theorem modify_modify (pit : Table) (id : ℕ) (f' : Entry → Entry)
    (hf : ∀ entry, (f entry).id = entry.id) :
    (pit.modify id f).modify id f' = pit.modify id fun entry => f' (f entry) := by
  ext1
  · simp only [modify, map_map]
    refine map_congr_left fun entry _ => ?_
    by_cases hid : entry.id = id
    · simp only [Function.comp_apply, if_pos hid, Entry.withId_of_eq (hf entry)]
      rw [hf entry, if_pos hid]
    · simp only [Function.comp_apply, if_neg hid]
  · rfl

theorem get_modify_self (h : pit.get id = some entry) :
    (pit.modify id f).get id = some ((f entry).withId entry.id) := by
  obtain ⟨hmem, hid⟩ := get_eq_some.mp h
  exact get_eq_some.mpr ⟨mem_modify.mpr ⟨entry, hmem, by rw [if_pos hid]⟩, hid⟩

theorem get_modify_of_ne {id' : ℕ} (hne : id' ≠ id) : (pit.modify id f).get id' = pit.get id' := by
  have hiff : ∀ entry, (pit.modify id f).get id' = some entry ↔ pit.get id' = some entry := by
    intro entry
    rw [get_eq_some, get_eq_some, mem_modify]
    constructor
    · rintro ⟨⟨old, hold, rfl⟩, hid⟩
      by_cases hoid : old.id = id
      · rw [if_pos hoid] at hid
        exact absurd (hid.symm.trans hoid) hne
      · rw [if_neg hoid] at hid ⊢
        exact ⟨hold, hid⟩
    · rintro ⟨hmem, rfl⟩
      exact ⟨⟨entry, hmem, by rw [if_neg hne]⟩, rfl⟩
  cases hget : pit.get id' with
  | some entry => exact (hiff entry).mpr hget
  | none =>
    cases hget' : (pit.modify id f).get id' with
    | none => rfl
    | some entry => rw [(hiff entry).mp hget'] at hget; cases hget

theorem get_of_erase {id' : ℕ} (h : (pit.erase id).get id' = some entry) :
    pit.get id' = some entry := by
  obtain ⟨hmem, hid⟩ := get_eq_some.mp h
  exact get_eq_some.mpr ⟨(mem_filter.mp hmem).1, hid⟩

theorem mem_of_find {interest : Interest} (h : pit.find interest = some entry) :
    entry ∈ pit.entries :=
  mem_of_find?_eq_some h

/-- The entry that the Interest gets, and what else is in the table then. -/
theorem insert_cases (pit : Table) (interest : Interest) :
    (∃ entry, pit.find interest = some entry ∧ pit.insert interest = (pit, entry, false)) ∨
      pit.find interest = none ∧
        (pit.insert interest).1.entries = pit.entries ++ [Entry.make pit.nextId interest] ∧
        (pit.insert interest).2 = (Entry.make pit.nextId interest, true) := by
  rw [insert]
  cases hfind : pit.find interest with
  | some entry => exact .inl ⟨entry, rfl, rfl⟩
  | none => exact .inr ⟨rfl, rfl, rfl⟩

theorem mem_insert (pit : Table) (interest : Interest) :
    (pit.insert interest).2.1 ∈ (pit.insert interest).1.entries := by
  rcases pit.insert_cases interest with ⟨entry, hfind, heq⟩ | ⟨-, hentries, heq⟩
  · rw [heq]
    exact mem_of_find hfind
  · rw [hentries, heq]
    exact mem_append_right _ (mem_singleton.mpr rfl)

theorem get_insert {interest : Interest} (hget : (pit.insert interest).1.get id = some entry) :
    pit.get id = some entry ∨
      pit.find interest = none ∧ entry = Entry.make pit.nextId interest := by
  rcases pit.insert_cases interest with ⟨found, -, heq⟩ | ⟨hnone, hentries, -⟩
  · rw [heq] at hget
    exact .inl hget
  · obtain ⟨hmem, hid⟩ := get_eq_some.mp hget
    rw [hentries] at hmem
    rcases mem_append.mp hmem with hmem | hmem
    · exact .inl (get_eq_some.mpr ⟨hmem, hid⟩)
    · exact .inr ⟨hnone, mem_singleton.mp hmem⟩

end Table

namespace Entry

variable {entry : Entry} {faceId : ℕ}

theorem mem_pendingDownstreams {now : ℕ} :
    faceId ∈ entry.pendingDownstreams now ↔
      ∃ r ∈ entry.inRecords, now < r.expiry ∧ r.faceId = faceId := by
  simp [pendingDownstreams, and_assoc]

theorem id_deleteInRecord (entry : Entry) (faceId : ℕ) :
    (entry.deleteInRecord faceId).id = entry.id := by
  unfold deleteInRecord
  split <;> rfl

/-! ### What concerns the downstreams -/

/-- The entries have the same in-records and the same nonces. -/
structure SameRecords (entry entry' : Entry) : Prop where
  inRecords : entry'.inRecords = entry.inRecords
  nonceList : entry'.nonceList = entry.nonceList

theorem SameRecords.refl (entry : Entry) : SameRecords entry entry := ⟨rfl, rfl⟩

theorem SameRecords.trans {a b c : Entry} (hab : SameRecords a b) (hbc : SameRecords b c) :
    SameRecords a c :=
  ⟨hbc.inRecords.trans hab.inRecords, hbc.nonceList.trans hab.nonceList⟩

variable {entry' : Entry}

theorem SameRecords.deleteInRecord (h : SameRecords entry entry') (faceId : ℕ) :
    SameRecords (entry.deleteInRecord faceId) (entry'.deleteInRecord faceId) := by
  unfold Entry.deleteInRecord
  rw [h.inRecords]
  cases entry.inRecords.find? fun r => r.faceId = faceId with
  | none => exact h
  | some r => exact ⟨rfl, congrArg (fun l : List Nonce => l.erase r.lastNonce) h.nonceList⟩

theorem SameRecords.foldl_deleteInRecord (h : SameRecords entry entry') (faceIds : List ℕ) :
    SameRecords (faceIds.foldl Entry.deleteInRecord entry)
      (faceIds.foldl Entry.deleteInRecord entry') := by
  induction faceIds generalizing entry entry' with
  | nil => exact h
  | cons faceId faceIds ih => exact ih (h.deleteInRecord faceId)

theorem SameRecords.pendingDownstreams (h : SameRecords entry entry') (now : ℕ) :
    entry'.pendingDownstreams now = entry.pendingDownstreams now := by
  rw [Entry.pendingDownstreams, h.inRecords, Entry.pendingDownstreams]

/-! ### Entries as the pipelines leave them -/

/-- A face has one in-record, no two of them have the same nonce, and all their
nonces are in the list, which names none twice. -/
structure WellFormed (entry : Entry) : Prop where
  faces : (entry.inRecords.map InRecord.faceId).Nodup
  nonces : ∀ r ∈ entry.inRecords, ∀ r' ∈ entry.inRecords, r.lastNonce = r'.lastNonce → r = r'
  listed : ∀ r ∈ entry.inRecords, r.lastNonce ∈ entry.nonceList
  nodup : entry.nonceList.Nodup

theorem wellFormed_make (id : ℕ) (interest : Interest) : (make id interest).WellFormed where
  faces := nodup_nil
  nonces _ hr := nomatch hr
  listed _ hr := nomatch hr
  nodup := nodup_singleton _

theorem WellFormed.sameRecords (h : entry.WellFormed) (hsame : entry.SameRecords entry') :
    entry'.WellFormed := by
  obtain ⟨hrecords, hlist⟩ := hsame
  exact ⟨hrecords ▸ h.faces, hrecords ▸ h.nonces, hrecords ▸ hlist ▸ h.listed, hlist ▸ h.nodup⟩

/-- A nonce that only the same face may have used before. -/
theorem WellFormed.insertOrUpdateInRecord (h : entry.WellFormed) {interest : Interest} (now : ℕ)
    (hnew : ∀ r ∈ entry.inRecords, r.faceId ≠ faceId → r.lastNonce ≠ interest.nonce) :
    (entry.insertOrUpdateInRecord now faceId interest).WellFormed where
  faces := nodup_upsert h.faces
  nonces r hr r' hr' heq := by
    rcases (mem_upsert h.faces).mp hr with rfl | ⟨hr, hne⟩ <;>
      rcases (mem_upsert h.faces).mp hr' with rfl | ⟨hr', hne'⟩
    · rfl
    · exact absurd heq.symm (hnew r' hr' hne')
    · exact absurd heq (hnew r hr hne)
    · exact h.nonces r hr r' hr' heq
  listed r hr := by
    have hold : ∀ nonce ∈ entry.nonceList,
        nonce ∈ (entry.insertOrUpdateInRecord now faceId interest).nonceList := by
      intro nonce hnonce
      rw [Entry.insertOrUpdateInRecord]
      dsimp only
      split
      · exact hnonce
      · exact mem_append_left _ hnonce
    rcases (mem_upsert h.faces).mp hr with rfl | ⟨hr, -⟩
    · rw [Entry.insertOrUpdateInRecord]
      dsimp only
      split
      · assumption
      · exact mem_append_right _ (mem_singleton.mpr rfl)
    · exact hold _ (h.listed r hr)
  nodup := by
    rw [Entry.insertOrUpdateInRecord]
    dsimp only
    split
    · exact h.nodup
    · rename_i hnot
      exact nodup_append.mpr ⟨h.nodup, nodup_singleton _, fun a ha b hb heq =>
        hnot (mem_singleton.mp hb ▸ heq ▸ ha)⟩

variable {r : InRecord}

theorem nonceList_deleteInRecord (entry : Entry) (faceId : ℕ) :
    (entry.deleteInRecord faceId).nonceList.Sublist entry.nonceList := by
  rw [deleteInRecord]
  split
  · exact Sublist.refl _
  · exact erase_sublist

section

variable (h : entry.WellFormed)
include h

theorem WellFormed.mem_deleteInRecord :
    r ∈ (entry.deleteInRecord faceId).inRecords ↔ r ∈ entry.inRecords ∧ r.faceId ≠ faceId := by
  rw [Entry.deleteInRecord]
  split
  · rename_i hnone
    refine ⟨fun hr => ⟨hr, ?_⟩, fun hr => hr.1⟩
    simpa using find?_eq_none.mp hnone r hr
  · exact mem_eraseKey h.faces

/-- The nonce of a record goes with it. -/
theorem WellFormed.lastNonce_not_mem (hr : r ∈ entry.inRecords) :
    r.lastNonce ∉ (entry.deleteInRecord r.faceId).nonceList := by
  rw [Entry.deleteInRecord, (find?_key_eq_some_iff h.faces).mpr ⟨hr, rfl⟩]
  exact h.nodup.not_mem_erase

theorem WellFormed.deleteInRecord (faceId : ℕ) : (entry.deleteInRecord faceId).WellFormed := by
  have hsub : ∀ r ∈ (entry.deleteInRecord faceId).inRecords, r ∈ entry.inRecords :=
    fun r hr => (h.mem_deleteInRecord.mp hr).1
  refine ⟨?_, fun r hr r' hr' => h.nonces r (hsub r hr) r' (hsub r' hr'), ?_,
    h.nodup.sublist (entry.nonceList_deleteInRecord faceId)⟩
  · rw [Entry.deleteInRecord]
    split
    · exact h.faces
    · exact h.faces.sublist (eraseKey_sublist.map _)
  · intro r hr
    obtain ⟨hmem, hne⟩ := h.mem_deleteInRecord.mp hr
    rw [Entry.deleteInRecord]
    split
    · exact h.listed r hmem
    · rename_i deleted hfind
      have hface : deleted.faceId = faceId := by simpa using find?_some hfind
      refine (mem_erase_of_ne fun heq => hne ?_).mpr (h.listed r hmem)
      rw [h.nonces r hmem deleted (mem_of_find?_eq_some hfind) heq, hface]

theorem WellFormed.foldl_deleteInRecord (faceIds : List ℕ) :
    (faceIds.foldl Entry.deleteInRecord entry).WellFormed := by
  induction faceIds generalizing entry with
  | nil => exact h
  | cons faceId faceIds ih => exact ih (h.deleteInRecord faceId)

theorem WellFormed.mem_foldl_deleteInRecord {faceIds : List ℕ} :
    r ∈ (faceIds.foldl Entry.deleteInRecord entry).inRecords ↔
      r ∈ entry.inRecords ∧ r.faceId ∉ faceIds := by
  induction faceIds generalizing entry with
  | nil => simp
  | cons faceId faceIds ih =>
    rw [foldl_cons, ih (h.deleteInRecord faceId), h.mem_deleteInRecord, mem_cons, not_or, and_assoc]

end

theorem inRecords_deleteInRecord (entry : Entry) (faceId : ℕ) :
    (entry.deleteInRecord faceId).inRecords.Sublist entry.inRecords := by
  rw [deleteInRecord]
  split
  · exact Sublist.refl _
  · exact eraseKey_sublist

theorem nonceList_foldl_deleteInRecord (faceIds : List ℕ) (entry : Entry) :
    (faceIds.foldl deleteInRecord entry).nonceList.Sublist entry.nonceList := by
  induction faceIds generalizing entry with
  | nil => exact Sublist.refl _
  | cons faceId faceIds ih => exact (ih _).trans (entry.nonceList_deleteInRecord faceId)

end Entry

namespace Table

/-- Of the entries `ids` the records have become those of `f`, and the other
entries are as they were. -/
structure Alters (f : Entry → Entry) (ids : List ℕ) (pit pit' : Table) : Prop where
  gone : ∀ id, pit.get id = none → pit'.get id = none
  other : ∀ id, id ∉ ids → pit'.get id = pit.get id
  self : ∀ id ∈ ids, ∀ entry, pit.get id = some entry →
    ∃ entry', pit'.get id = some entry' ∧ (f entry).SameRecords entry'

variable {f : Entry → Entry} {ids : List ℕ} {pit pit' : Table} {id : ℕ}

/-- Every entry comes from one that was there. -/
theorem Alters.exists_of_get (h : Alters f ids pit pit') {entry' : Entry}
    (hget : pit'.get id = some entry') :
    ∃ entry, pit.get id = some entry ∧
      (if id ∈ ids then f entry else entry).SameRecords entry' := by
  cases hold : pit.get id with
  | none =>
    rw [h.gone id hold] at hget
    cases hget
  | some entry =>
    refine ⟨entry, rfl, ?_⟩
    by_cases hid : id ∈ ids
    · obtain ⟨new, hnew, hsame⟩ := h.self id hid entry hold
      rw [if_pos hid, Option.some.inj (hget.symm.trans hnew)]
      exact hsame
    · rw [if_neg hid, Option.some.inj (hget.symm.trans ((h.other id hid).trans hold))]
      exact .refl entry

theorem alters_refl (ids : List ℕ) (pit : Table) : Alters (fun entry => entry) ids pit pit :=
  ⟨fun _ h => h, fun _ _ => rfl, fun _ _ entry hget => ⟨entry, hget, .refl entry⟩⟩

theorem get_modify_of_none {id' : ℕ} (hnone : pit.get id' = none) :
    (pit.modify id f).get id' = none := by
  cases hget : (pit.modify id f).get id' with
  | none => rfl
  | some entry =>
    obtain ⟨hmem, hid⟩ := get_eq_some.mp hget
    obtain ⟨old, hold, rfl⟩ := mem_modify.mp hmem
    have hoid : old.id = id' := by
      rw [← hid]
      split <;> rfl
    rw [get_eq_some.mpr ⟨hold, hoid⟩] at hnone
    cases hnone

theorem alters_modify (f : Entry → Entry) (id : ℕ) (pit : Table) :
    Alters f [id] pit (pit.modify id f) where
  gone _ hnone := get_modify_of_none hnone
  other id' hne := get_modify_of_ne (mem_singleton.not.mp hne)
  self id' hid entry hget := by
    obtain rfl := mem_singleton.mp hid
    exact ⟨_, get_modify_self hget, ⟨rfl, rfl⟩⟩

theorem Alters.congr {f' : Entry → Entry} (h : Alters f ids pit pit')
    (hf : ∀ id ∈ ids, ∀ entry, pit.get id = some entry → (f' entry).SameRecords (f entry)) :
    Alters f' ids pit pit' where
  gone := h.gone
  other := h.other
  self id hid entry hget := by
    obtain ⟨entry', hget', hsame⟩ := h.self id hid entry hget
    exact ⟨entry', hget', (hf id hid entry hget).trans hsame⟩

/-- A change of something else does not alter the records. -/
theorem alters_modify_of_same (hf : ∀ entry : Entry, entry.SameRecords (f entry)) (id : ℕ)
    (pit : Table) : Alters (fun entry => entry) [id] pit (pit.modify id f) :=
  (alters_modify f id pit).congr fun _ _ entry _ => hf entry

/-- Two changes of the same entries. -/
theorem Alters.trans {f' : Entry → Entry} {pit'' : Table} (h : Alters f ids pit pit')
    (h' : Alters f' ids pit' pit'') (hf' : ∀ entry entry' : Entry, entry.SameRecords entry' →
      (f' entry).SameRecords (f' entry')) : Alters (fun entry => f' (f entry)) ids pit pit'' where
  gone id hnone := h'.gone id (h.gone id hnone)
  other id hne := (h'.other id hne).trans (h.other id hne)
  self id hid entry hget := by
    obtain ⟨entry', hget', hsame⟩ := h.self id hid entry hget
    obtain ⟨entry'', hget'', hsame'⟩ := h'.self id hid entry' hget'
    exact ⟨entry'', hget'', (hf' _ _ hsame).trans hsame'⟩

/-- The same change of one entry and then of others. -/
theorem Alters.cons {pit'' : Table} (h : Alters f [id] pit pit') (h' : Alters f ids pit' pit'')
    (hid : id ∉ ids) : Alters f (id :: ids) pit pit'' where
  gone id' hnone := h'.gone id' (h.gone id' hnone)
  other id' hne := by
    obtain ⟨hne, hnot⟩ := not_or.mp (mem_cons.not.mp hne)
    exact (h'.other id' hnot).trans (h.other id' (mem_singleton.not.mpr hne))
  self id' hid' entry hget := by
    rcases mem_cons.mp hid' with rfl | hmem
    · obtain ⟨entry', hget', hsame⟩ := h.self id' mem_cons_self entry hget
      exact ⟨entry', (h'.other id' hid).trans hget', hsame⟩
    · have hne : id' ∉ [id] := mem_singleton.not.mpr fun heq => hid (heq ▸ hmem)
      exact h'.self id' hmem entry ((h.other id' hne).trans hget)

end Table

end ValProofs.Pit
