import ValProofs.Packet

/-!
The three small tables of VAL: the Interest From Network Table, the Data From
Network Table and the map from geofaces to areas. Their entries do not change
once they are in a table, and two equal entries of one table are never told
apart, so an entry is its value and a table is the list of its entries.
-/

namespace ValProofs

open List

namespace Ifnt

structure Entry where
  da : String
  sa : String
  nonce : Nonce
  phPos : String
  hopC : UInt8
  rn : String
  faceId : ℕ
  deriving DecidableEq, Repr

/-- The constructor of an entry; the hop count is decremented in `uint8_t`. -/
def Entry.make (valHeader : ValHeader) (interest : Interest) (faceId : ℕ) : Entry where
  da := valHeader.da
  sa := valHeader.sa
  nonce := interest.nonce
  phPos := valHeader.phPos
  hopC := valHeader.hopC - 1
  rn := valHeader.rn
  faceId := faceId

/-- `false` when an equal entry was there already. -/
def addEntry (table : List Entry) (entry : Entry) : List Entry × Bool :=
  if entry ∈ table then (table, false) else (table ++ [entry], true)

def removeEntry (table : List Entry) (entry : Entry) : List Entry := table.erase entry

def findMatchByNonce (table : List Entry) (nonce : Nonce) : Option Entry :=
  table.find? fun entry => entry.nonce == nonce

def findMatchByNonceList (table : List Entry) (nonceList : List Nonce) : List Entry :=
  nonceList.filterMap (findMatchByNonce table)

def removeEntryByNonce (table : List Entry) (nonce : Nonce) : List Entry :=
  match findMatchByNonce table nonce with
  | some entry => removeEntry table entry
  | none => table

def removeEntriesByNonceList (table : List Entry) (nonceList : List Nonce) : List Entry :=
  nonceList.foldl removeEntryByNonce table

variable {table : List Entry} {entry : Entry}

theorem findMatchByNonce_eq_some {nonce : Nonce} (h : findMatchByNonce table nonce = some entry) :
    entry ∈ table ∧ entry.nonce = nonce :=
  ⟨mem_of_find?_eq_some h, by simpa using find?_some h⟩

theorem findMatchByNonce_isSome (h : entry ∈ table) :
    ∃ found, findMatchByNonce table entry.nonce = some found := by
  cases hfind : findMatchByNonce table entry.nonce with
  | some found => exact ⟨found, rfl⟩
  | none => simpa using find?_eq_none.mp hfind entry h

variable {nonceList : List Nonce}

theorem mem_findMatchByNonceList (h : entry ∈ findMatchByNonceList table nonceList) :
    entry ∈ table ∧ entry.nonce ∈ nonceList := by
  obtain ⟨nonce, hnonce, hfind⟩ := mem_filterMap.mp h
  obtain ⟨hmem, rfl⟩ := findMatchByNonce_eq_some hfind
  exact ⟨hmem, hnonce⟩

/-- The list that is found is empty only when no entry has a nonce of the list. -/
theorem findMatchByNonceList_ne_nil (hmem : entry ∈ table) (hnonce : entry.nonce ∈ nonceList) :
    findMatchByNonceList table nonceList ≠ [] := by
  obtain ⟨found, hfind⟩ := findMatchByNonce_isSome hmem
  exact ne_nil_of_mem (mem_filterMap.mpr ⟨entry.nonce, hnonce, hfind⟩)

/-- Removals leave entries with other nonces alone. -/
theorem mem_removeEntryByNonce {nonce : Nonce} (hne : entry.nonce ≠ nonce) :
    entry ∈ removeEntryByNonce table nonce ↔ entry ∈ table := by
  unfold removeEntryByNonce
  cases hfind : findMatchByNonce table nonce with
  | none => rfl
  | some found =>
    have hnonce := (findMatchByNonce_eq_some hfind).2
    exact mem_erase_of_ne fun heq => hne (heq ▸ hnonce)

theorem mem_removeEntriesByNonceList (hne : entry.nonce ∉ nonceList) :
    entry ∈ removeEntriesByNonceList table nonceList ↔ entry ∈ table := by
  unfold removeEntriesByNonceList
  induction nonceList generalizing table with
  | nil => rfl
  | cons nonce nonceList ih =>
    simp only [mem_cons, not_or] at hne
    rw [foldl_cons, ih hne.2, mem_removeEntryByNonce hne.1]

theorem removeEntryByNonce_sublist (table : List Entry) (nonce : Nonce) :
    (removeEntryByNonce table nonce).Sublist table := by
  unfold removeEntryByNonce
  cases findMatchByNonce table nonce with
  | none => exact Sublist.refl _
  | some found => exact erase_sublist

theorem removeEntriesByNonceList_sublist (table : List Entry) (nonceList : List Nonce) :
    (removeEntriesByNonceList table nonceList).Sublist table := by
  unfold removeEntriesByNonceList
  induction nonceList generalizing table with
  | nil => exact Sublist.refl _
  | cons nonce nonceList ih =>
    rw [foldl_cons]
    exact (ih _).trans (removeEntryByNonce_sublist table nonce)

theorem removeEntriesByNonceList_subset (table : List Entry) (nonceList : List Nonce) :
    removeEntriesByNonceList table nonceList ⊆ table :=
  (removeEntriesByNonceList_sublist table nonceList).subset

end Ifnt

namespace Dfnt

structure Entry where
  sa : String
  da : String
  sig : Signature
  phPos : String
  hopC : UInt8
  rn : String
  faceId : ℕ
  deriving DecidableEq, Repr

def Entry.make (valHeader : ValHeader) (data : Data) (faceId : ℕ) : Entry where
  sa := valHeader.sa
  da := valHeader.da
  sig := data.signature
  phPos := valHeader.phPos
  hopC := valHeader.hopC - 1
  rn := valHeader.rn
  faceId := faceId

def addEntry (table : List Entry) (entry : Entry) : List Entry := entry :: table

def removeEntry (table : List Entry) (entry : Entry) : List Entry := table.erase entry

def removeEntryBySignature (table : List Entry) (sig : Signature) : List Entry :=
  table.eraseP fun entry => entry.sig == sig

def findMatch (table : List Entry) (sig : Signature) : Option Entry :=
  table.find? fun entry => entry.sig == sig

variable {table : List Entry} {sig : Signature}

theorem findMatch_eq_some {entry : Entry} (h : findMatch table sig = some entry) :
    entry ∈ table ∧ entry.sig = sig :=
  ⟨mem_of_find?_eq_some h, by simpa using find?_some h⟩

/-- Removing the entry that was found removes the first one with the
signature. -/
theorem removeEntry_of_findMatch {entry : Entry} (h : findMatch table sig = some entry) :
    removeEntry table entry = removeEntryBySignature table sig := by
  have hsig := (findMatch_eq_some h).2
  induction table with
  | nil => cases h
  | cons e table ih =>
    unfold findMatch removeEntry removeEntryBySignature at *
    by_cases he : e.sig = sig
    · have heq : e = entry := by simpa [he] using h
      simp [heq, hsig]
    · have hne : e ≠ entry := fun heq => he (heq ▸ hsig)
      have hfind : table.find? (fun entry => entry.sig == sig) = some entry := by
        simpa [he] using h
      simp [he, hne, ih hfind]

theorem removeEntryBySignature_of_findMatch (h : findMatch table sig = none) :
    removeEntryBySignature table sig = table :=
  eraseP_of_forall_not (find?_eq_none.mp h)

theorem removeEntryBySignature_subset (table : List Entry) (sig : Signature) :
    removeEntryBySignature table sig ⊆ table :=
  eraseP_subset

end Dfnt

namespace F2a

structure Entry where
  faceId : ℕ
  geoArea : String
  deriving DecidableEq, Repr

def addEntry (table : List Entry) (entry : Entry) : List Entry :=
  if entry ∈ table then table else table ++ [entry]

def findByFaceId (table : List Entry) (faceId : ℕ) : Option Entry :=
  table.find? fun entry => entry.faceId == faceId

def findByGeoArea (table : List Entry) (geoArea : String) : Option Entry :=
  table.find? fun entry => entry.geoArea == geoArea

end F2a

end ValProofs
