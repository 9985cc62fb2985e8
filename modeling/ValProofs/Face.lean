import ValProofs.Packet

/-!
The face table that NFD and VAL share. A face is what the code asks of it: the
local URI, the scope and link type, and the two flags VAL has added. Faces get
increasing identifiers, so an identifier that is in the table keeps its face
when further faces are added.
-/

namespace ValProofs

open Option List

structure Face where
  localUri : String
  /-- `getScope() == FACE_SCOPE_LOCAL`. -/
  isLocal : Bool
  /-- `getLinkType() == LINK_TYPE_POINT_TO_POINT`. -/
  isPointToPoint : Bool
  isValNetFace : Bool
  isGeoFace : Bool
  deriving DecidableEq, Repr

/-- `getLocalUri().toString() == "appFace://"`. -/
def Face.isAppFace (face : Face) : Bool := face.localUri == "appFace://"

/-- `GeofaceFactory::makeGeoface`. -/
def makeGeoface : Face where
  localUri := "geoFace://"
  isLocal := false
  isPointToPoint := true
  isValNetFace := false
  isGeoFace := true

/-- The face an application gets. -/
def makeAppFace : Face where
  localUri := "appFace://"
  isLocal := true
  isPointToPoint := true
  isValNetFace := false
  isGeoFace := false

structure FaceTable where
  faces : List (ℕ × Face)
  lastFaceId : ℕ
  /-- `m_lastFaceId` is the largest identifier given out. -/
  fresh : ∀ e ∈ faces, e.1 ≤ lastFaceId

namespace FaceTable

/-- `face::FACEID_RESERVED_MAX` is 255. -/
def empty : FaceTable where
  faces := []
  lastFaceId := 255
  fresh := List.forall_mem_nil _

def get (table : FaceTable) (id : ℕ) : Option Face :=
  (table.faces.find? fun e => e.1 = id).map Prod.snd

/-- The face with this identifier has the property. -/
def has (table : FaceTable) (p : Face → Bool) (id : ℕ) : Bool := (table.get id).any p

variable {table : FaceTable} {id : ℕ} {face : Face}

theorem has_of_get (h : table.get id = some face) (p : Face → Bool) : table.has p id = p face := by
  rw [has, h, any_some]

/-- `add`: the face gets the identifier after `lastFaceId`. -/
def add (table : FaceTable) (face : Face) : FaceTable where
  faces := table.faces ++ [(table.lastFaceId + 1, face)]
  lastFaceId := table.lastFaceId + 1
  fresh := by
    intro e he
    rcases List.mem_append.mp he with he | he
    · exact Nat.le_succ_of_le (table.fresh e he)
    · simp [List.mem_singleton.mp he]

@[simp] theorem lastFaceId_add (table : FaceTable) (face : Face) :
    (table.add face).lastFaceId = table.lastFaceId + 1 := rfl

/-- Adding a face leaves the other identifiers alone. -/
theorem get_add_of_get {f : Face} (h : table.get id = some f) :
    (table.add face).get id = some f := by
  obtain ⟨e, hfind, rfl⟩ := map_eq_some_iff.mp h
  simp [get, add, find?_append, hfind]

@[simp] theorem get_add_self (table : FaceTable) (face : Face) :
    (table.add face).get (table.lastFaceId + 1) = some face := by
  have hnone : (table.faces.find? fun e => e.1 = table.lastFaceId + 1) = none := by
    refine find?_eq_none.mpr fun e he => ?_
    have := table.fresh e he
    simp only [decide_eq_true_eq]
    omega
  simp [get, add, find?_append, hnone]

theorem le_lastFaceId (h : table.get id = some face) : id ≤ table.lastFaceId := by
  obtain ⟨e, hfind, rfl⟩ := map_eq_some_iff.mp h
  have hid : e.1 = id := by simpa using find?_some hfind
  exact hid ▸ table.fresh e (mem_of_find?_eq_some hfind)

/-- Every identifier keeps its face. -/
def Extends (table' table : FaceTable) : Prop :=
  ∀ id face, table.get id = some face → table'.get id = some face

theorem Extends.refl (table : FaceTable) : table.Extends table := fun _ _ h => h

theorem Extends.trans {a b c : FaceTable} (hba : b.Extends a) (hcb : c.Extends b) : c.Extends a :=
  fun id face h => hcb id face (hba id face h)

theorem extends_add (table : FaceTable) (face : Face) : (table.add face).Extends table :=
  fun _ _ h => get_add_of_get h

variable {table' : FaceTable}

/-- What is known of a face that is in the table stays so. -/
theorem Extends.has (h : table'.Extends table) (hknown : (table.get id).isSome) (p : Face → Bool) :
    table'.has p id = table.has p id := by
  obtain ⟨face, hget⟩ := isSome_iff_exists.mp hknown
  rw [FaceTable.has, FaceTable.has, hget, h id face hget]

theorem get_add {f : Face} (h : (table.add face).get id = some f) :
    table.get id = some f ∨ f = face := by
  simp only [get, add, find?_append, map_eq_some_iff] at h ⊢
  obtain ⟨e, hfind, rfl⟩ := h
  cases hold : table.faces.find? (fun e => e.1 = id) with
  | some e' =>
    rw [hold] at hfind
    cases hfind
    exact .inl ⟨e, rfl, rfl⟩
  | none =>
    rw [hold, none_or] at hfind
    have hmem := mem_of_find?_eq_some hfind
    exact .inr (by rw [mem_singleton.mp hmem])

/-- Every face of the table has the property. -/
def All (P : Face → Prop) (table : FaceTable) : Prop :=
  ∀ id face, table.get id = some face → P face

theorem All.add {P : Face → Prop} (h : table.All P) (hface : P face) : (table.add face).All P := by
  intro id f hget
  rcases get_add hget with hold | rfl
  · exact h id f hold
  · exact hface

/-- No geoface has local scope. -/
def GeofacesRemote : FaceTable → Prop :=
  All fun face => face.isGeoFace = true → face.isLocal = false

/-- The geofaces are those that VAL has made. -/
def GeofacesMade : FaceTable → Prop :=
  All fun face => face.isGeoFace = true → face = makeGeoface

/-- The identifier belongs to a `ValNetFace` of the table. -/
def IsValNet (table : FaceTable) (id : ℕ) : Prop :=
  ∃ face, table.get id = some face ∧ face.isValNetFace = true

theorem IsValNet.extends (h : table.IsValNet id) (hext : table'.Extends table) :
    table'.IsValNet id := by
  obtain ⟨face, hget, hval⟩ := h
  exact ⟨face, hext id face hget, hval⟩

/-- The identifier belongs to a geoface of the table. -/
def IsGeo (table : FaceTable) (id : ℕ) : Prop :=
  ∃ face, table.get id = some face ∧ face.isGeoFace = true

theorem IsGeo.extends (h : table.IsGeo id) (hext : table'.Extends table) : table'.IsGeo id := by
  obtain ⟨face, hget, hgeo⟩ := h
  exact ⟨face, hext id face hget, hgeo⟩

theorem isGeo_iff_has : table.IsGeo id ↔ table.has Face.isGeoFace id = true :=
  (any_eq_true _ _).symm

end FaceTable

end ValProofs
