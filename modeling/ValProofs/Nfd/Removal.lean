import ValProofs.Nfd.Effects
import ValProofs.Val.Removal

/-!
Nodes whose faces and routes go away again. `FaceTable::remove` emits one of two
signals: NFD is told about faces that are not `ValNetFace`s, and takes them out
of its FIB and its PIT; about a `ValNetFace` only VAL is told.
-/

namespace ValProofs

open Lib List

namespace Fib

/-- `Entry::removeNextHopByFace`. -/
def Entry.removeNextHopByFace (entry : Entry) (faceId : ℕ) : Entry :=
  { entry with nextHops := entry.nextHops.filter fun nextHop => nextHop.faceId ≠ faceId }

/-- `Fib::removeNextHopByFace` of every entry, which is erased if it is then
without next hops. -/
def removeNextHopByFace (fib : List Entry) (faceId : ℕ) : List Entry :=
  (fib.map fun entry => entry.removeNextHopByFace faceId).filter Entry.hasNextHops

/-- `Entry::removeNextHop`. -/
def Entry.removeNextHop (entry : Entry) (faceId : ℕ) : Entry :=
  { entry with nextHops := entry.nextHops.eraseP fun nextHop => nextHop.faceId = faceId }

/-- `removeNextHop` of the entry for the name, which is erased if it is then
without next hops. -/
def removeNextHop (fib : List Entry) (name : Name) (faceId : ℕ) : List Entry :=
  (fib.map fun entry => if entry.name = name then entry.removeNextHop faceId else entry).filter
    fun entry => entry.name ≠ name || entry.hasNextHops

theorem not_hasRoute_removeNextHopByFace (fib : List Entry) (faceId : ℕ) (name : Name) :
    ¬ HasRoute (removeNextHopByFace fib faceId) name faceId := by
  rintro ⟨entry, hentry, -, nextHop, hhop, hface⟩
  obtain ⟨old, -, rfl⟩ := mem_map.mp (mem_filter.mp hentry).1
  have hne := (mem_filter.mp hhop).2
  simp [hface] at hne

end Fib

namespace Pit

/-- `Pit::deleteInOutRecords`. -/
def Entry.deleteInOutRecords (faceId : ℕ) (entry : Entry) : Entry :=
  (entry.deleteInRecord faceId).deleteOutRecord faceId

/-- `deleteInOutRecords` of every entry. -/
def Table.deleteInOutRecords (pit : Table) (faceId : ℕ) : Table where
  entries := pit.entries.map (Entry.deleteInOutRecords faceId)
  nextId := pit.nextId
  fresh := by
    intro entry hentry
    obtain ⟨old, hold, rfl⟩ := List.mem_map.mp hentry
    exact lt_of_eq_of_lt (old.id_deleteInRecord faceId) (pit.fresh old hold)
  nodup := by
    have hids : (pit.entries.map (Entry.deleteInOutRecords faceId)).map Entry.id =
        pit.entries.map Entry.id := by
      rw [List.map_map]
      exact List.map_congr_left fun entry _ => entry.id_deleteInRecord faceId
    rw [hids]
    exact pit.nodup

namespace Entry

/-- A face has at most one in-record and at most one out-record. -/
structure Single (entry : Entry) : Prop where
  inRecords : (entry.inRecords.map InRecord.faceId).Nodup
  outRecords : (entry.outRecords.map OutRecord.faceId).Nodup

theorem single_make (id : ℕ) (interest : Interest) : (make id interest).Single :=
  ⟨nodup_nil, nodup_nil⟩

variable {entry : Entry}

theorem Single.deleteInRecord (h : entry.Single) (faceId : ℕ) :
    (entry.deleteInRecord faceId).Single :=
  ⟨h.inRecords.sublist ((entry.inRecords_deleteInRecord faceId).map _),
    outRecords_deleteInRecord entry faceId ▸ h.outRecords⟩

theorem Single.deleteOutRecord (h : entry.Single) (faceId : ℕ) :
    (entry.deleteOutRecord faceId).Single :=
  ⟨h.inRecords, h.outRecords.sublist (eraseKey_sublist.map _)⟩

theorem faces_setIncomingNack (entry : Entry) (faceId : ℕ) :
    (entry.setIncomingNack faceId).outRecords.map OutRecord.faceId =
      entry.outRecords.map OutRecord.faceId := by
  rw [setIncomingNack, map_map]
  refine map_congr_left fun r _ => ?_
  simp only [Function.comp_apply]
  split <;> rfl

theorem Single.edit {ins outs : ℕ → Prop} {entry' : Entry} (h : entry.Single)
    (hedit : Edit ins outs entry entry') : entry'.Single := by
  cases hedit with
  | insertIn => exact ⟨nodup_upsert h.inRecords, h.outRecords⟩
  | deleteIn faceId => exact h.deleteInRecord faceId
  | insertOut => exact ⟨h.inRecords, nodup_upsert h.outRecords⟩
  | deleteOut faceId => exact h.deleteOutRecord faceId
  | nack faceId => exact ⟨h.inRecords, entry.faces_setIncomingNack faceId ▸ h.outRecords⟩
  | other _ hin hout => exact ⟨hin ▸ h.inRecords, hout ▸ h.outRecords⟩

/-- One record of each kind is erased, and there is no second one. -/
theorem Single.not_mem_deleteInRecord (h : entry.Single) (faceId : ℕ) :
    ∀ r ∈ (entry.deleteInRecord faceId).inRecords, r.faceId ≠ faceId := by
  intro r hr
  rw [Entry.deleteInRecord] at hr
  split at hr
  · rename_i hnone
    simpa using find?_eq_none.mp hnone r hr
  · exact ((mem_eraseKey h.inRecords).mp hr).2

end Entry

namespace Table

theorem not_hasInRecord_deleteInOutRecords {pit : Table} (h : ∀ entry ∈ pit.entries, entry.Single)
    (faceId : ℕ) : ¬ (pit.deleteInOutRecords faceId).HasInRecord faceId := by
  rintro ⟨entry, hentry, r, hr, hface⟩
  obtain ⟨old, hold, rfl⟩ := mem_map.mp hentry
  exact (h old hold).not_mem_deleteInRecord faceId r hr hface

theorem not_hasOutRecord_deleteInOutRecords {pit : Table} (h : ∀ entry ∈ pit.entries, entry.Single)
    (faceId : ℕ) : ¬ (pit.deleteInOutRecords faceId).HasOutRecord faceId := by
  rintro ⟨entry, hentry, r, hr, hface⟩
  obtain ⟨old, hold, rfl⟩ := mem_map.mp hentry
  exact ((mem_eraseKey ((h old hold).deleteInRecord faceId).outRecords).mp hr).2 hface

end Table

end Pit

namespace Node

variable {τ : Type}

/-- `nfd::cleanupOnFaceRemoval`. -/
def cleanupOnFaceRemoval (node : Node τ) (faceId : ℕ) : Node τ :=
  { node with
    fib := Fib.removeNextHopByFace node.fib faceId
    pit := node.pit.deleteInOutRecords faceId }

/-- `FaceTable::remove`. The signals go out before the face is erased. -/
def removeFace (node : Node τ) (faceId : ℕ) : Node τ :=
  let node := if node.isValNetFace faceId then node else node.cleanupOnFaceRemoval faceId
  { node with val := node.val.removeFace faceId }

theorem val_removeFace (node : Node τ) (faceId : ℕ) :
    (node.removeFace faceId).val = node.val.removeFace faceId := by
  rw [removeFace]
  split <;> rfl

/-- `FibManager::removeNextHop`. -/
def removeRoute (node : Node τ) (name : Name) (faceId : ℕ) : Node τ :=
  if (node.val.faces.get faceId).isNone then node
  else { node with fib := Fib.removeNextHop node.fib name faceId }

/-! ### Runs with removals -/

inductive Churn
  | event (e : Event)
  | removeFace (faceId : ℕ)
  | removeRoute (name : Name) (faceId : ℕ)

/-- VAL is the first to make geofaces. -/
def Started (node : Node τ) : Prop :=
  ∃ faces mobility store face, (∀ id f, faces.get id = some f → f.isGeoFace = false) ∧
    face.isValNetFace = true ∧ face.isGeoFace = false ∧
    node = { construct faces mobility store with
      val := (construct faces mobility store).val.addFace face }

def churn (P : Platform τ) (g : Geometry) : System (Node τ) Churn where
  init := Started
  guard node
    | .event e => node.guard e
    | .removeFace faceId => (node.val.faces.get faceId).isSome
    | .removeRoute _ _ => True
  next node
    | .event e => node.next P g e
    | .removeFace faceId => node.removeFace faceId
    | .removeRoute name faceId => node.removeRoute name faceId

/-- No entry ever has two records of one kind for a face. -/
theorem single_of_churn {P : Platform τ} {g : Geometry} {node : Node τ}
    (h : (churn P g).Reachable node) : ∀ entry ∈ node.pit.entries, entry.Single := by
  refine h.invariant (I := fun node => ∀ entry ∈ node.pit.entries, entry.Single) ?_ ?_
  · rintro node ⟨faces, mobility, store, face, -, -, -, rfl⟩ entry hentry
    cases hentry
  · rintro node (e | faceId | ⟨name, faceId⟩) hsingle -
    · rw [← pit_arrived node e] at hsingle
      exact (acted_next_any P g node e).pit.invariant (fun _ _ hedit h => h.edit hedit)
        Pit.Entry.single_make hsingle
    · intro entry hentry
      change entry ∈ (node.removeFace faceId).pit.entries at hentry
      rw [removeFace] at hentry
      split at hentry
      · exact hsingle entry hentry
      · obtain ⟨old, hold, rfl⟩ := mem_map.mp hentry
        exact ((hsingle old hold).deleteInRecord faceId).deleteOutRecord faceId
    · intro entry hentry
      change entry ∈ (node.removeRoute name faceId).pit.entries at hentry
      rw [removeRoute] at hentry
      split at hentry <;> exact hsingle entry hentry

/-! ### References to a face -/

/-- A next hop or a record refers to the face. -/
def Refers (node : Node τ) (faceId : ℕ) : Prop :=
  (∃ name, Fib.HasRoute node.fib name faceId) ∨ node.pit.HasInRecord faceId ∨
    node.pit.HasOutRecord faceId

/-- Nothing refers to a face after it has been removed, unless it is a
`ValNetFace` and something did before. -/
theorem not_refers_removeFace_iff {P : Platform τ} {g : Geometry} {node : Node τ}
    (h : (churn P g).Reachable node) {faceId : ℕ} {face : Face}
    (hget : node.val.faces.get faceId = some face) :
    ¬ (node.removeFace faceId).Refers faceId ↔
      face.isValNetFace = false ∨ ¬ node.Refers faceId := by
  have hval : node.isValNetFace faceId = face.isValNetFace := FaceTable.has_of_get hget _
  rw [removeFace, hval]
  cases face.isValNetFace with
  | true => simp [Refers]
  | false =>
      refine iff_of_true ?_ (.inl rfl)
      have hsingle := single_of_churn h
      rintro (⟨name, hroute⟩ | hin | hout)
      · exact Fib.not_hasRoute_removeNextHopByFace node.fib faceId name hroute
      · exact Pit.Table.not_hasInRecord_deleteInOutRecords hsingle faceId hin
      · exact Pit.Table.not_hasOutRecord_deleteInOutRecords hsingle faceId hout

theorem freshNode_started (P : Platform Unit) (g : Geometry) : (churn P g).Reachable freshNode := by
  refine .of_init ⟨.empty, _, (), ValForwarder.netFace, fun id f hget => ?_, rfl, rfl, rfl⟩
  cases hget

/-- The stack helper has made face 257 a default route with the lowest priority. -/
def defaultRouted : Node Unit := freshNode.addRoute [] 257 2147483647

theorem defaultRouted_reachable (P : Platform Unit) (g : Geometry) :
    (churn P g).Reachable defaultRouted := by
  have hguard : (churn P g).guard freshNode (.event (.addRoute [] 257 2147483647)) := trivial
  exact (freshNode_started P g).next hguard

theorem not_refers_removeFace_defaultRouted : ¬ (defaultRouted.removeFace 256).Refers 256 :=
  (not_refers_removeFace_iff (defaultRouted_reachable samplePlatform ValForwarder.flatGeometry)
    (rfl : defaultRouted.val.faces.get 256 = some makeGeoface)).mpr (.inl rfl)

theorem default_route_dangles :
    (churn samplePlatform ValForwarder.flatGeometry).Reachable defaultRouted ∧
      (defaultRouted.val.faces.get 257).isSome ∧
      (defaultRouted.removeFace 257).Refers 257 := by
  refine ⟨defaultRouted_reachable _ _, rfl, .inl ⟨[], ?_⟩⟩
  exact ⟨⟨[], [⟨256, 1⟩, ⟨257, 2147483647⟩]⟩, List.mem_singleton.mpr rfl, rfl,
    ⟨257, 2147483647⟩, List.mem_cons_of_mem _ (List.mem_singleton.mpr rfl), rfl⟩

end Node

end ValProofs
