import Mathlib.Logic.Relation
import ValProofs.Nfd.Machine

/-!
What an event can do to the records of the PIT and what it can send: every entry
comes from an old or a new one by a few kinds of changes, and everything that
leaves the node does so through the face of the event, a face that was chosen for
an Interest, or the face of an in-record.

Invariants about faces follow from the step lemma at the end without another
look at the pipelines.
-/

namespace ValProofs

open ValForwarder List Option

namespace Pit

namespace Entry

/-- A change that the pipelines make to an entry. In-records are made for faces
in `ins` only, and out-records for faces in `outs`. -/
inductive Edit (ins outs : ℕ → Prop) (entry : Entry) : Entry → Prop
  | insertIn (now faceId : ℕ) (interest : Interest) (h : ins faceId) :
      Edit ins outs entry (entry.insertOrUpdateInRecord now faceId interest)
  | deleteIn (faceId : ℕ) : Edit ins outs entry (entry.deleteInRecord faceId)
  | insertOut (now faceId : ℕ) (interest : Interest) (h : outs faceId) :
      Edit ins outs entry (entry.insertOrUpdateOutRecord now faceId interest)
  | deleteOut (faceId : ℕ) : Edit ins outs entry (entry.deleteOutRecord faceId)
  | nack (faceId : ℕ) : Edit ins outs entry (entry.setIncomingNack faceId)
  | other (entry' : Entry) (hin : entry'.inRecords = entry.inRecords)
      (hout : entry'.outRecords = entry.outRecords) : Edit ins outs entry entry'

/-- Any number of changes. -/
def Edits (ins outs : ℕ → Prop) : Entry → Entry → Prop := Relation.ReflTransGen (Edit ins outs)

/-- Changes that make no in-record. -/
theorem Edit.of_false {ins outs : ℕ → Prop} {entry entry' : Entry}
    (h : Edit (fun _ => False) outs entry entry') : Edit ins outs entry entry' := by
  cases h with
  | insertIn _ _ _ hfalse => exact hfalse.elim
  | deleteIn faceId => exact .deleteIn faceId
  | insertOut now faceId interest hout => exact .insertOut now faceId interest hout
  | deleteOut faceId => exact .deleteOut faceId
  | nack faceId => exact .nack faceId
  | other _ hin hout => exact .other _ hin hout

/-- What a single change keeps, any number of changes keep. -/
theorem Edits.invariant {ins outs : ℕ → Prop} {I : Entry → Prop}
    (hI : ∀ entry entry', Edit ins outs entry entry' → I entry → I entry') {entry entry' : Entry}
    (h : Edits ins outs entry entry') (hentry : I entry) : I entry' := by
  induction h with
  | refl => exact hentry
  | tail _ hedit ih => exact hI _ _ hedit ih

end Entry

namespace Table

/-- Every entry comes from an old entry, or from a new one. -/
def Edited (ins outs : ℕ → Prop) (pit pit' : Table) : Prop :=
  ∀ entry' ∈ pit'.entries, ∃ entry,
    (entry ∈ pit.entries ∨ ∃ id interest, entry = Entry.make id interest) ∧
      Entry.Edits ins outs entry entry'

variable {ins outs : ℕ → Prop} {pit pit' : Table}

theorem Edited.of_subset (h : pit'.entries ⊆ pit.entries) : Edited ins outs pit pit' :=
  fun entry hentry => ⟨entry, .inl (h hentry), .refl⟩

theorem Edited.refl (pit : Table) : Edited ins outs pit pit := .of_subset (Subset.refl _)

theorem Edited.trans {pit'' : Table} (h : Edited ins outs pit pit')
    (h' : Edited ins outs pit' pit'') : Edited ins outs pit pit'' := by
  intro entry'' hentry''
  obtain ⟨entry', hfrom | hnew, hedits'⟩ := h' entry'' hentry''
  · obtain ⟨entry, hfrom, hedits⟩ := h entry' hfrom
    exact ⟨entry, hfrom, hedits.trans hedits'⟩
  · exact ⟨entry', .inr hnew, hedits'⟩

theorem edited_modify {f : Entry → Entry} (hf : ∀ entry, Entry.Edit ins outs entry (f entry))
    (pit : Table) (id : ℕ) : Edited ins outs pit (pit.modify id f) := by
  intro entry' hentry'
  obtain ⟨entry, hentry, rfl⟩ := mem_modify.mp hentry'
  refine ⟨entry, .inl hentry, ?_⟩
  split
  · exact (Relation.ReflTransGen.single (hf entry)).tail (.other _ rfl rfl)
  · exact .refl

theorem edited_insert (pit : Table) (interest : Interest) :
    Edited ins outs pit (pit.insert interest).1 := by
  rcases pit.insert_cases interest with ⟨found, -, heq⟩ | ⟨-, hentries, -⟩
  · rw [heq]
    exact .refl pit
  · intro entry hentry
    rw [hentries] at hentry
    rcases mem_append.mp hentry with hentry | hentry
    · exact ⟨entry, .inl hentry, .refl⟩
    · exact ⟨entry, .inr ⟨_, _, mem_singleton.mp hentry⟩, .refl⟩

theorem edited_erase (pit : Table) (id : ℕ) : Edited ins outs pit (pit.erase id) :=
  .of_subset fun _ hentry => (mem_filter.mp hentry).1

/-- What every change keeps and a new entry has, all entries keep. -/
theorem Edited.invariant (h : Edited ins outs pit pit') {I : Entry → Prop}
    (hI : ∀ entry entry', Entry.Edit ins outs entry entry' → I entry → I entry')
    (hmake : ∀ id interest, I (Entry.make id interest)) (hpit : ∀ entry ∈ pit.entries, I entry) :
    ∀ entry ∈ pit'.entries, I entry := by
  intro entry' hentry'
  obtain ⟨entry, hfrom, hedits⟩ := h entry' hentry'
  refine hedits.invariant hI ?_
  rcases hfrom with hentry | ⟨id, interest, rfl⟩
  · exact hpit entry hentry
  · exact hmake id interest

/-- Some entry has an in-record for the face. -/
def HasInRecord (pit : Table) (faceId : ℕ) : Prop :=
  ∃ entry ∈ pit.entries, ∃ r ∈ entry.inRecords, r.faceId = faceId

/-- Some entry has an out-record for the face. -/
def HasOutRecord (pit : Table) (faceId : ℕ) : Prop :=
  ∃ entry ∈ pit.entries, ∃ r ∈ entry.outRecords, r.faceId = faceId

end Table

namespace Entry

variable {ins outs p : ℕ → Prop}

/-- In-records are made for faces in `ins` only. -/
theorem Edit.inRecords {entry entry' : Entry} (h : Edit ins outs entry entry')
    (hins : ∀ faceId, ins faceId → p faceId) (hentry : ∀ r ∈ entry.inRecords, p r.faceId) :
    ∀ r ∈ entry'.inRecords, p r.faceId := by
  cases h with
  | insertIn now faceId interest hface =>
    intro r hr
    rcases Lib.of_mem_upsert hr with rfl | hr
    · exact hins faceId hface
    · exact hentry r hr
  | deleteIn faceId =>
    exact fun r hr => hentry r ((entry.inRecords_deleteInRecord faceId).subset hr)
  | insertOut | deleteOut | nack => exact hentry
  | other _ hin => exact hin ▸ hentry

theorem outRecords_deleteInRecord (entry : Entry) (faceId : ℕ) :
    (entry.deleteInRecord faceId).outRecords = entry.outRecords := by
  rw [deleteInRecord]
  split <;> rfl

/-- Out-records are made for faces in `outs` only. -/
theorem Edit.outRecords {entry entry' : Entry} (h : Edit ins outs entry entry')
    (houts : ∀ faceId, outs faceId → p faceId) (hentry : ∀ r ∈ entry.outRecords, p r.faceId) :
    ∀ r ∈ entry'.outRecords, p r.faceId := by
  cases h with
  | insertIn => exact hentry
  | deleteIn faceId => exact outRecords_deleteInRecord entry faceId ▸ hentry
  | insertOut now faceId interest hface =>
    intro r hr
    rcases Lib.of_mem_upsert hr with rfl | hr
    · exact houts faceId hface
    · exact hentry r hr
  | deleteOut faceId => exact fun r hr => hentry r (Lib.eraseKey_sublist.subset hr)
  | nack faceId =>
    intro r hr
    obtain ⟨old, hold, rfl⟩ := mem_map.mp hr
    split <;> exact hentry old hold
  | other _ _ hout => exact hout ▸ hentry

end Entry

namespace Table.Edited

variable {ins outs : ℕ → Prop} {pit pit' : Table} {faceId : ℕ}

theorem hasInRecord (h : Edited ins outs pit pit') (hin : pit'.HasInRecord faceId) :
    pit.HasInRecord faceId ∨ ins faceId := by
  obtain ⟨entry, hentry, r, hr, rfl⟩ := hin
  refine h.invariant (I := fun entry => ∀ r ∈ entry.inRecords,
    pit.HasInRecord r.faceId ∨ ins r.faceId) ?_ ?_ ?_ entry hentry r hr
  · exact fun _ _ hedit => hedit.inRecords
      (p := fun faceId => pit.HasInRecord faceId ∨ ins faceId) fun _ hface => .inr hface
  · exact fun _ _ r hr => absurd hr not_mem_nil
  · exact fun entry hentry r hr => .inl ⟨entry, hentry, r, hr, rfl⟩

theorem hasOutRecord (h : Edited ins outs pit pit') (hout : pit'.HasOutRecord faceId) :
    pit.HasOutRecord faceId ∨ outs faceId := by
  obtain ⟨entry, hentry, r, hr, rfl⟩ := hout
  refine h.invariant (I := fun entry => ∀ r ∈ entry.outRecords,
    pit.HasOutRecord r.faceId ∨ outs r.faceId) ?_ ?_ ?_ entry hentry r hr
  · exact fun _ _ hedit => hedit.outRecords
      (p := fun faceId => pit.HasOutRecord faceId ∨ outs faceId) fun _ hface => .inr hface
  · exact fun _ _ r hr => absurd hr not_mem_nil
  · exact fun entry hentry r hr => .inl ⟨entry, hentry, r, hr, rfl⟩

end Table.Edited

end Pit

open Pit

/-- The face that something is sent through. -/
def Sent.faceId : Sent → ℕ
  | .interest faceId _ => faceId
  | .data faceId _ => faceId
  | .nack faceId _ => faceId

namespace Node

variable {τ : Type}

/-- What a pipeline does to the PIT, and that everything it sends leaves through
a face in `sends` that is not a geoface. -/
structure Acted (ins outs sends : ℕ → Prop) (node node' : Node τ) : Prop where
  faces : node'.val.faces = node.val.faces
  f2a : node'.val.f2a = node.val.f2a
  pit : Pit.Table.Edited ins outs node.pit node'.pit
  sent : ∀ s ∈ node'.sent, s ∈ node.sent ∨
    node.isGeoFace s.faceId = false ∧ sends s.faceId

section Acted

variable {ins outs sends : ℕ → Prop} {node node' : Node τ}

theorem Acted.refl (node : Node τ) : Acted ins outs sends node node :=
  ⟨rfl, rfl, .refl _, fun _ hs => .inl hs⟩

theorem Acted.trans {node'' : Node τ} (h : Acted ins outs sends node node')
    (h' : Acted ins outs sends node' node'') : Acted ins outs sends node node'' := by
  refine ⟨h'.faces.trans h.faces, h'.f2a.trans h.f2a, h.pit.trans h'.pit, fun s hs => ?_⟩
  rcases h'.sent s hs with hs | ⟨hgeo, hface⟩
  · exact h.sent s hs
  · rw [isGeoFace, h.faces] at hgeo
    exact .inr ⟨hgeo, hface⟩

/-- Whatever is sent goes to VAL. -/
theorem Acted.of_pit (hfaces : node'.val.faces = node.val.faces)
    (hf2a : node'.val.f2a = node.val.f2a) (hpit : Table.Edited ins outs node.pit node'.pit)
    (hsent : node'.sent = node.sent) : Acted ins outs sends node node' :=
  ⟨hfaces, hf2a, hpit, fun _ hs => .inl (hsent ▸ hs)⟩

theorem acted_modifyPit {f : Entry → Entry} (hf : ∀ entry, Entry.Edit ins outs entry (f entry))
    (node : Node τ) (id : ℕ) : Acted ins outs sends node (node.modifyPit id f) :=
  .of_pit rfl rfl (Table.edited_modify hf node.pit id) rfl

/-- The records stay as they are. -/
theorem acted_modifyPit_of_same (node : Node τ) (id : ℕ) (f : Entry → Entry)
    (hin : ∀ entry, (f entry).inRecords = entry.inRecords)
    (hout : ∀ entry, (f entry).outRecords = entry.outRecords) :
    Acted ins outs sends node (node.modifyPit id f) :=
  acted_modifyPit (fun entry => .other _ (hin entry) (hout entry)) node id

theorem acted_setExpiryTimer (node : Node τ) (id duration : ℕ) :
    Acted ins outs sends node (node.setExpiryTimer id duration) :=
  acted_modifyPit_of_same node id _ (fun _ => rfl) fun _ => rfl

theorem Acted.of_send {s : Sent} (hgeo : node.isGeoFace s.faceId = false) (hface : sends s.faceId) :
    Acted ins outs sends node { node with sent := node.sent ++ [s] } := by
  refine ⟨rfl, rfl, .refl _, fun s' hs' => ?_⟩
  rcases mem_append.mp hs' with hs' | hs'
  · exact .inl hs'
  · rw [mem_singleton.mp hs']
    exact .inr ⟨hgeo, hface⟩

variable (g : Geometry) (P : Platform τ)

theorem acted_insertDeadNonceList (node : Node τ) (entry : Entry) (upstream : Option ℕ) :
    Acted ins outs sends node (node.insertDeadNonceList P entry upstream) := by
  obtain ⟨records, heq⟩ := insertDeadNonceList_eq P entry upstream
  rw [heq]
  exact .of_pit rfl rfl (.refl _) rfl

/-! ### Outgoing packets -/

variable {outFace : ℕ}

theorem acted_onOutgoingInterest (node : Node τ) (id : ℕ) (hout : outs outFace)
    (hsend : sends outFace) (interest : Interest) :
    Acted ins outs sends node (node.onOutgoingInterest g id outFace interest) := by
  have hrecord : Acted ins outs sends node (node.modifyPit id fun entry =>
      entry.insertOrUpdateOutRecord node.now outFace interest) :=
    acted_modifyPit (fun _ => .insertOut _ _ _ hout) node id
  refine hrecord.trans ?_
  rw [onOutgoingInterest]
  cases hgeo : (node.modifyPit id fun entry =>
      entry.insertOrUpdateOutRecord node.now outFace interest).isGeoFace outFace with
  | true =>
    exact .of_pit (faces_reveiceInterest ..) (f2a_reveiceInterest ..)
      (.refl _) rfl
  | false => exact .of_send (s := .interest outFace interest) hgeo hsend

theorem acted_faceSendDataToVal (node : Node τ) (faceId : ℕ) (data : Data)
    (nonceList : Option (List Nonce)) (isProducer : Bool) :
    Acted ins outs sends node (node.faceSendDataToVal g faceId data nonceList isProducer) := by
  rw [faceSendDataToVal]
  split
  · exact .of_pit (faces_reveiceData ..) (f2a_reveiceData ..)
      (.refl _) rfl
  · exact .refl node

section

variable (node : Node τ) (id : ℕ) (data : Data)
  (hsend : node.isGeoFace outFace = false → sends outFace)

include hsend

theorem acted_onOutgoingData (nonceList : Option (List Nonce)) (isProducer : Bool) :
    Acted ins outs sends node (node.onOutgoingData g data outFace nonceList isProducer) := by
  rw [onOutgoingData]
  split
  · exact .refl node
  · cases hgeo : node.isGeoFace outFace with
    | true =>
      exact .of_pit (faces_reveiceData ..) (f2a_reveiceData ..)
        (.refl _) rfl
    | false => exact .of_send (s := .data outFace data) hgeo (hsend hgeo)

theorem acted_sendDataToVal (nonceList : Option (List Nonce)) (isProducer : Bool) :
    Acted ins outs sends node (node.sendDataToVal g id data outFace nonceList isProducer) := by
  have hdelete : Acted ins outs sends node
      (node.modifyPit id fun entry => entry.deleteInRecord outFace) :=
    acted_modifyPit (fun _ => .deleteIn _) node id
  rw [sendDataToVal]
  exact hdelete.trans (acted_onOutgoingData g (node.modifyPit id fun entry =>
    entry.deleteInRecord outFace) data hsend nonceList isProducer)

theorem acted_sendData :
    Acted ins outs sends node (node.sendData g id data outFace) := by
  rw [sendData]
  split
  · exact .refl node
  · exact acted_sendDataToVal g node id data hsend none false

end

/-! ### The strategy -/

theorem acted_afterReceiveInterest (node : Node τ) (id inFace : ℕ) (pitInterest interest : Interest)
    (hout : ∀ faceId, node.isValNetFace faceId = false →
      node.isAppFace faceId = true ∨ node.isGeoFace faceId = true → outs faceId ∧ sends faceId) :
    Acted ins outs sends node (node.afterReceiveInterest g id inFace pitInterest interest) := by
  rw [afterReceiveInterest]
  split
  · exact acted_setExpiryTimer node id 0
  · rename_i nextHop hchosen
    have hcandidate : node.isValNetFace nextHop.faceId = false ∧
        (node.isAppFace nextHop.faceId = true ∨ node.isGeoFace nextHop.faceId = true) := by
      rw [orElse_eq_orElse, orElse_eq_or] at hchosen
      rcases or_eq_some_iff.mp hchosen with hfind | ⟨-, hfind⟩
      · have hmem := mem_filter.mp (mem_of_find?_eq_some hfind)
        have happ := find?_some hfind
        simp only [Bool.and_eq_true, Bool.not_eq_true'] at hmem
        exact ⟨hmem.2.1, .inl happ⟩
      · have hmem := mem_filter.mp (mem_of_find?_eq_some hfind)
        have hgeo := find?_some hfind
        simp only [Bool.and_eq_true, Bool.not_eq_true'] at hmem
        exact ⟨hmem.2.1, .inr hgeo⟩
    obtain ⟨houts, hsend⟩ := hout _ hcandidate.1 hcandidate.2
    exact acted_onOutgoingInterest g node id houts hsend interest

variable {inFace : ℕ}

theorem acted_afterContentStoreHit (node : Node τ) (entry : Entry) (hin : sends inFace)
    (data : Data) : Acted ins outs sends node (node.afterContentStoreHit g entry inFace data) := by
  rw [afterContentStoreHit]
  split
  · split
    · exact .refl node
    · rename_i nextHop hfind
      have hgeo : node.isGeoFace nextHop.faceId = true := by simpa using find?_some hfind
      refine acted_sendDataToVal g node entry.id data (fun hnot => ?_) _ _
      rw [hgeo] at hnot
      cases hnot
  · exact acted_sendData g node entry.id data fun _ => hin

theorem acted_sendDownstream (id inFace : ℕ) (isProducer : Bool) (s : Downstream τ) {downstream : ℕ}
    (hsend : sends downstream) :
    Acted ins outs sends s.node (sendDownstream g id inFace isProducer s downstream).node := by
  rw [sendDownstream]
  split
  · exact .refl _
  · split
    · exact acted_sendDataToVal g s.node id s.data (fun _ => hsend) _ _
    · split
      · have hdata : Acted ins outs sends s.node (s.node.sendData g id s.data downstream) :=
          acted_sendData g s.node id s.data fun _ => hsend
        dsimp only
        split
        · exact hdata.trans (acted_faceSendDataToVal ..)
        · exact hdata
      · exact acted_modifyPit (fun _ => .deleteIn _) s.node id

theorem acted_foldl_sendDownstream (id inFace : ℕ) (isProducer : Bool) (downstreams : List ℕ)
    (hsend : ∀ faceId ∈ downstreams, sends faceId) (s : Downstream τ) :
    Acted ins outs sends s.node
      (downstreams.foldl (sendDownstream g id inFace isProducer) s).node := by
  induction downstreams generalizing s with
  | nil => exact .refl _
  | cons faceId downstreams ih =>
    have hfirst : Acted ins outs sends s.node
        (sendDownstream g id inFace isProducer s faceId).node :=
      acted_sendDownstream g id inFace isProducer s (hsend faceId mem_cons_self)
    exact hfirst.trans (ih (fun f hf => hsend f (mem_cons_of_mem _ hf)) _)

/-- The faces that are served have in-records. -/
theorem acted_afterReceiveData {order : List ℕ → List ℕ}
    (horder : ∀ faces, (order faces).Perm faces) (node : Node τ) (id inFace : ℕ) (data : Data)
    (hsend : ∀ faceId, node.pit.HasInRecord faceId → sends faceId) :
    Acted ins outs sends node (node.afterReceiveData g order id inFace data).1 := by
  rw [afterReceiveData]
  cases hget : node.pit.get id with
  | none => exact .refl node
  | some entry =>
    have hroute : Acted ins outs sends node
        (if node.isGeoFace inFace then node.addRoute data.name.getPrefix1 inFace 1
          else node) := by
      split
      · exact .of_pit rfl rfl (.refl _) rfl
      · exact .refl node
    refine hroute.trans (acted_foldl_sendDownstream g id inFace _ _ ?_ ⟨_, data, false⟩)
    intro faceId hface
    obtain ⟨r, hr, -, hid⟩ := Entry.mem_pendingDownstreams.mp ((horder _).mem_iff.mp hface)
    exact hsend faceId ⟨entry, (Table.get_eq_some.mp hget).1, r, hr, hid⟩

/-! ### The pipelines -/

theorem acted_onInterestLoop (node : Node τ) (hin : sends inFace) (interest : Interest) :
    Acted ins outs sends node (node.onInterestLoop inFace interest) := by
  rw [onInterestLoop]
  split
  · rename_i hp2p
    have hgeo : node.isGeoFace inFace = false := by simpa using (Bool.and_eq_true_iff.mp hp2p).2
    exact .of_send (s := .nack inFace interest) hgeo hin
  · exact .refl node

/-- The face that an Interest with a next hop goes to is that one or an
application's. -/
theorem chooseNextHop_face (node : Node τ) (id inFace : ℕ) (isNew : Bool) (nextHopFaceId : ℕ)
    (interest : Interest) :
    (node.chooseNextHop id inFace isNew nextHopFaceId interest).2.1 = nextHopFaceId ∨
      node.isAppFace (node.chooseNextHop id inFace isNew nextHopFaceId interest).2.1 = true := by
  rw [chooseNextHop]
  dsimp only
  split
  · split
    · split
      · rename_i nextHop hfind
        have happ : node.isAppFace nextHop.faceId = true := by
          simpa using find?_some hfind
        exact .inr happ
      · exact .inl rfl
    · exact .inl rfl
  · exact .inl rfl

theorem acted_chooseNextHop (node : Node τ) (id inFace : ℕ) (isNew : Bool) (nextHopFaceId : ℕ)
    (interest : Interest) :
    Acted ins outs sends node
      (node.chooseNextHop id inFace isNew nextHopFaceId interest).1 := by
  rw [chooseNextHop]
  dsimp only
  split
  · split
    · split
      · split
        · exact acted_modifyPit_of_same node id _ (fun _ => rfl) fun _ => rfl
        · exact .refl node
      · exact .refl node
    · exact .of_pit rfl rfl (.refl _) rfl
  · exact .refl node

/-- Where an Interest may go: to an application or a geoface, if it is not a
`ValNetFace`, or to the next hop the Interest has been tagged with, if that
exists. -/
def MayForward (node : Node τ) (interest : Interest) (faceId : ℕ) : Prop :=
  node.isAppFace faceId = true ∨
    (node.isValNetFace faceId = false ∧ node.isGeoFace faceId = true) ∨
    (interest.nextHopFaceId = some faceId ∧ (node.val.faces.get faceId).isSome)

theorem acted_onContentStoreMiss (node : Node τ) (id : ℕ) (isNew : Bool) (interest : Interest)
    (hins : ins inFace)
    (hout : ∀ faceId, node.MayForward interest faceId → outs faceId ∧ sends faceId) :
    Acted ins outs sends node (node.onContentStoreMiss g id inFace isNew interest) := by
  have hrecord : Acted ins outs sends node (node.modifyPit id fun entry =>
      entry.insertOrUpdateInRecord node.now inFace interest) :=
    acted_modifyPit (fun _ => .insertIn _ _ _ hins) node id
  rw [onContentStoreMiss]
  generalize hrecorded : (node.modifyPit id fun entry =>
    entry.insertOrUpdateInRecord node.now inFace interest) = recorded at hrecord
  have htimed : Acted ins outs sends node (recorded.setExpiryTimer id
      ((((recorded.pit.get id).map Entry.lastExpiry).getD 0 - recorded.now) / 1000000)) :=
    hrecord.trans (acted_setExpiryTimer ..)
  dsimp only
  generalize recorded.setExpiryTimer id
    ((((recorded.pit.get id).map Entry.lastExpiry).getD 0 - recorded.now) / 1000000) = timed
    at htimed
  have hfaces : timed.val.faces = node.val.faces := htimed.faces
  refine htimed.trans ?_
  cases htag : interest.nextHopFaceId with
  | none =>
    refine acted_afterReceiveInterest g timed id inFace _ interest fun faceId hval hkind => ?_
    rw [isValNetFace, hfaces] at hval
    rw [isAppFace, isGeoFace, hfaces] at hkind
    rcases hkind with happ | hgeo
    · exact hout faceId (.inl happ)
    · exact hout faceId (.inr (.inl ⟨hval, hgeo⟩))
  | some nextHopFaceId =>
    dsimp only
    split
    · exact .refl timed
    · rename_i hsome
      have hchosen : Acted ins outs sends timed
          (timed.chooseNextHop id inFace isNew nextHopFaceId interest).1 :=
        acted_chooseNextHop timed id inFace isNew nextHopFaceId interest
      have hface := chooseNextHop_face timed id inFace isNew nextHopFaceId interest
      have hmay : node.MayForward interest
          (timed.chooseNextHop id inFace isNew nextHopFaceId interest).2.1 := by
        rcases hface with heq | happ
        · rw [heq]
          rw [Bool.not_eq_true, isNone_eq_false_iff] at hsome
          exact .inr (.inr ⟨htag, hfaces ▸ hsome⟩)
        · rw [isAppFace, hfaces] at happ
          exact .inl happ
      obtain ⟨houts, hsend⟩ := hout _ hmay
      refine hchosen.trans ?_
      split
      · have hroute : Acted ins outs sends
            (timed.chooseNextHop id inFace isNew nextHopFaceId interest).1
            ((timed.chooseNextHop id inFace isNew nextHopFaceId interest).1.addRoute
              (timed.chooseNextHop id inFace isNew nextHopFaceId interest).2.2.name.getPrefix1
              (timed.chooseNextHop id inFace isNew nextHopFaceId interest).2.1 1) :=
          .of_pit rfl rfl (.refl _) rfl
        exact hroute.trans (acted_onOutgoingInterest g _ id houts hsend _)
      · exact acted_onOutgoingInterest g _ id houts hsend _

theorem acted_onContentStoreHit (node : Node τ) (entry : Entry) (hin : sends inFace)
    (data : Data) : Acted ins outs sends node (node.onContentStoreHit g entry inFace data) := by
  have hmark : Acted ins outs sends node (node.modifyPit entry.id fun entry =>
      { entry with isSatisfied := true, dataFreshnessPeriod := data.freshnessPeriod }) :=
    acted_modifyPit_of_same node entry.id _ (fun _ => rfl) fun _ => rfl
  rw [onContentStoreHit]
  exact (hmark.trans (acted_setExpiryTimer _ entry.id 0)).trans
    (acted_afterContentStoreHit g _ entry hin data)

theorem acted_onIncomingInterest (g : Geometry) (node : Node τ) (interest : Interest)
    (hins : ins inFace) (hin : sends inFace)
    (hout : ∀ faceId, node.MayForward interest faceId → outs faceId ∧ sends faceId) :
    Acted ins outs sends node (node.onIncomingInterest P g inFace interest) := by
  rw [onIncomingInterest]
  split
  · exact .refl node
  · split
    · exact acted_onInterestLoop node hin interest
    · rw [enterInterest]
      -- Without its forwarding hint the Interest may go where it may go with it.
      generalize hhint : withoutHint P interest = interest'
      have hout' : ∀ faceId, node.MayForward interest' faceId → outs faceId ∧ sends faceId := by
        have htag : interest'.nextHopFaceId = interest.nextHopFaceId := by
          rw [← hhint, withoutHint]
          split <;> rfl
        intro faceId hmay
        rw [MayForward, htag] at hmay
        exact hout faceId hmay
      have hinsert : ∀ store, Acted ins outs sends node
          { node with pit := (node.pit.insert interest').1, store := store } :=
        fun store => .of_pit rfl rfl (Table.edited_insert node.pit interest') rfl
      cases hentry : node.pit.insert interest' with
      | mk pit rest =>
        obtain ⟨entry, isNew⟩ := rest
        rw [hentry] at hinsert
        dsimp only
        split
        · exact (hinsert node.store).trans (acted_onInterestLoop _ hin interest')
        · split
          · split
            · exact (hinsert _).trans (acted_onContentStoreHit g _ entry hin _)
            · exact (hinsert _).trans (acted_onContentStoreMiss g _ entry.id isNew interest'
                hins hout')
          · exact (hinsert node.store).trans (acted_onContentStoreMiss g _ entry.id isNew
              interest' hins hout')

theorem acted_onInterestFinalize (node : Node τ) (id : ℕ) :
    Acted ins outs sends node (node.onInterestFinalize P id) := by
  rw [onInterestFinalize]
  split
  · exact .refl node
  · rename_i entry _
    have hdead : Acted ins outs sends node (node.insertDeadNonceList P entry none) :=
      acted_insertDeadNonceList P node entry none
    exact hdead.trans (.of_pit rfl rfl (Table.edited_erase _ id) rfl)

theorem acted_onDataUnsolicited (g : Geometry) (node : Node τ) (inFace : ℕ) (data : Data) :
    Acted ins outs sends node (node.onDataUnsolicited P g inFace data) := by
  rw [onDataUnsolicited]
  split
  · exact .refl node
  · split
    · cases (Fib.findLongestPrefixMatch node.fib data.name).nextHops.any
          fun nextHop => node.isAppFace nextHop.faceId with
      | true => exact acted_faceSendDataToVal ..
      | false =>
        have hroute : Acted ins outs sends node
            (node.addRoute data.name.getPrefix1 inFace 1) := .of_pit rfl rfl (.refl _) rfl
        exact (hroute.trans (acted_faceSendDataToVal ..)).trans (.of_pit rfl rfl (.refl _) rfl)
    · exact .of_pit rfl rfl (.refl _) rfl

theorem acted_satisfy (g : Geometry) (inFace : ℕ) (s : Node τ × Data) (id : ℕ)
    (hsend : ∀ faceId, s.1.pit.HasInRecord faceId → sends faceId) :
    Acted (fun _ => False) outs sends s.1 (satisfy P g inFace s id).1 := by
  have htimer : Acted (fun _ => False) outs sends s.1 (s.1.setExpiryTimer id 0) :=
    acted_setExpiryTimer s.1 id 0
  rw [satisfy]
  dsimp only
  generalize s.1.setExpiryTimer id 0 = timed at htimer
  have hserve : Acted (fun _ => False) outs sends s.1
      (timed.afterReceiveData g P.setOrder id inFace s.2).1 := by
    refine htimer.trans (acted_afterReceiveData g P.perm_setOrder timed id inFace s.2 ?_)
    intro faceId hrecord
    rcases htimer.pit.hasInRecord hrecord with hrecord | hfalse
    · exact hsend faceId hrecord
    · exact hfalse.elim
  have hmark := hserve.trans (acted_modifyPit_of_same _ id (fun entry =>
    { entry with
      isSatisfied := true
      dataFreshnessPeriod :=
        (timed.afterReceiveData g P.setOrder id inFace s.2).2.freshnessPeriod })
    (fun _ => rfl) fun _ => rfl)
  split
  · exact hmark.trans (acted_modifyPit (fun _ => .deleteOut _) _ id)
  · exact (hmark.trans (acted_insertDeadNonceList ..)).trans
      (acted_modifyPit (fun _ => .deleteOut _) _ id)

theorem acted_foldl_satisfy (g : Geometry) (inFace : ℕ) (ids : List ℕ) (s : Node τ × Data)
    (hsend : ∀ faceId, s.1.pit.HasInRecord faceId → sends faceId) :
    Acted (fun _ => False) outs sends s.1 (ids.foldl (satisfy P g inFace) s).1 := by
  induction ids generalizing s with
  | nil => exact .refl _
  | cons id ids ih =>
    have hfirst : Acted (fun _ => False) outs sends s.1 (satisfy P g inFace s id).1 :=
      acted_satisfy P g inFace s id hsend
    refine hfirst.trans (ih _ fun faceId hrecord => ?_)
    rcases hfirst.pit.hasInRecord hrecord with hrecord | hfalse
    · exact hsend faceId hrecord
    · exact hfalse.elim

theorem acted_onIncomingData (g : Geometry) (node : Node τ) (inFace : ℕ) (data : Data)
    (hsend : ∀ faceId, node.pit.HasInRecord faceId → sends faceId) :
    Acted (fun _ => False) outs sends node (node.onIncomingData P g inFace data) := by
  rw [onIncomingData]
  split
  · exact .refl node
  · split
    · exact acted_onDataUnsolicited P g node inFace data
    · have hstore : Acted (fun _ => False) outs sends node
          { node with store := P.contentStoreAdd node.store data } := .of_pit rfl rfl (.refl _) rfl
      exact hstore.trans (acted_foldl_satisfy P g inFace _ (_, data) hsend)

theorem acted_onIncomingNack (node : Node τ) (inFace : ℕ) (interest : Interest) :
    Acted ins outs sends node (node.onIncomingNack inFace interest) := by
  rw [onIncomingNack]
  split
  · exact .refl node
  · split
    · exact .refl node
    · split
      · exact .refl node
      · rename_i entry _ _ _ _
        split
        · exact .refl node
        · have hnack : Acted ins outs sends node (node.modifyPit entry.id fun entry =>
              entry.setIncomingNack inFace) := acted_modifyPit (fun _ => .nack _) node entry.id
          dsimp only
          split
          · exact hnack
          · exact hnack.trans (acted_setExpiryTimer ..)

theorem Acted.of_data (h : Acted (fun _ => False) outs sends node node') :
    Acted ins outs sends node node' := by
  refine ⟨h.faces, h.f2a, fun entry' hentry' => ?_, h.sent⟩
  obtain ⟨entry, hfrom, hedits⟩ := h.pit entry' hentry'
  exact ⟨entry, hfrom, Relation.ReflTransGen.mono (fun _ _ => Entry.Edit.of_false) _ _ hedits⟩

/-- After VAL has looked at the packet, everything is up to NFD. -/
theorem acted_onReceivedValPacket (g : Geometry) (node : Node τ) {face : ℕ} {valP : ValPacket}
    {v : ValForwarder} {packet : Option ToNfd}
    (hrec : node.val.onReceivedValPacket face valP = (v, packet))
    (hinterest : ∀ geoface interest, packet = some (.interest geoface interest) →
      ins geoface ∧ sends geoface ∧ ∀ faceId,
        ({ node with val := v } : Node τ).MayForward interest faceId → outs faceId ∧ sends faceId)
    (hsend : ∀ faceId, node.pit.HasInRecord faceId → sends faceId) :
    Acted ins outs sends { node with val := v } (node.onReceivedValPacket P g face valP) := by
  rw [onReceivedValPacket, hrec]
  cases packet with
  | none => exact .refl _
  | some packet =>
    cases packet with
    | interest geoface interest =>
      obtain ⟨hins, hin, hout⟩ := hinterest geoface interest rfl
      exact acted_onIncomingInterest P g _ interest hins hin hout
    | data geoface data => exact .of_data (acted_onIncomingData P g _ geoface data hsend)

/-! ### Events -/

/-- The node after VAL has looked at what has come, and before NFD does. -/
def arrived (node : Node τ) : Event → Node τ
  | .receive face valP => { node with val := (node.val.onReceivedValPacket face valP).1 }
  | .addFace face => { node with val := node.val.addFace face }
  | _ => node

/-- The Interest that an event brings to NFD, with its face. -/
def brought (node : Node τ) : Event → Option (ℕ × Interest)
  | .receive face valP =>
      match (node.val.onReceivedValPacket face valP).2 with
      | some (.interest geoface interest) => some (geoface, interest)
      | _ => none
  | .incomingInterest face interest => some (face, interest)
  | _ => none

/-- **The step lemma.** In-records are made for the face that an Interest comes
from, out-records for faces it may go to, and besides these only faces with
in-records are sent anything. -/
theorem acted_next (g : Geometry) (node : Node τ) (e : Event)
    (hinterest : ∀ face interest, node.brought e = some (face, interest) →
      ins face ∧ sends face ∧ ∀ faceId, (node.arrived e).MayForward interest faceId →
        outs faceId ∧ sends faceId) (hsend : ∀ faceId, node.pit.HasInRecord faceId → sends faceId) :
    Acted ins outs sends (node.arrived e) (node.next P g e) := by
  cases e with
  | receive face valP =>
    have hrec : node.val.onReceivedValPacket face valP =
      ((node.val.onReceivedValPacket face valP).1,
        (node.val.onReceivedValPacket face valP).2) := rfl
    refine acted_onReceivedValPacket P g node hrec (fun geoface interest hpacket => ?_) hsend
    refine hinterest geoface interest ?_
    rw [brought, hpacket]
  | incomingInterest face interest =>
    obtain ⟨hins, hin, hout⟩ := hinterest face interest rfl
    exact acted_onIncomingInterest P g node interest hins hin hout
  | incomingData face data => exact .of_data (acted_onIncomingData P g node face data hsend)
  | incomingNack face interest => exact acted_onIncomingNack node face interest
  | fire id => exact .of_pit rfl rfl (.refl _) rfl
  | interestFinalize id => exact acted_onInterestFinalize P node id
  | elapse duration => exact .of_pit rfl rfl (.refl _) rfl
  | addFace face => exact .refl _
  | addRoute name faceId cost | move mobility => exact .of_pit rfl rfl (.refl _) rfl

end Acted

theorem pit_arrived (node : Node τ) (e : Event) : (node.arrived e).pit = node.pit := by
  cases e <;> rfl

/-- VAL only adds faces. -/
theorem extends_arrived (node : Node τ) (e : Event) :
    (node.arrived e).val.faces.Extends node.val.faces := by
  cases e with
  | receive face valP => exact (node.val.onReceivedValPacket_grows face valP).1
  | addFace face => exact FaceTable.extends_add _ _
  | _ => exact .refl _

theorem eq_of_brought_receive {node : Node τ} {face geoface : ℕ} {valP : ValPacket}
    {interest : Interest} (h : node.brought (.receive face valP) = some (geoface, interest)) :
    node.val.onReceivedValPacket face valP =
      ((node.val.onReceivedValPacket face valP).1, some (.interest geoface interest)) := by
  refine Prod.ext rfl ?_
  rw [brought] at h
  split at h
  · rename_i heq
    rw [heq]
    cases h
    rfl
  · cases h

theorem sent_arrived (node : Node τ) (e : Event) : (node.arrived e).sent = node.sent := by
  cases e <;> rfl

/-- The step lemma, when it does not matter which faces take part. -/
theorem acted_next_any (P : Platform τ) (g : Geometry) (node : Node τ) (e : Event) :
    Acted (fun _ => True) (fun _ => True) (fun _ => True) (node.arrived e) (node.next P g e) :=
  acted_next P g node e (fun _ _ _ => ⟨trivial, trivial, fun _ _ => ⟨trivial, trivial⟩⟩)
    fun _ _ => trivial

/-! ### The faces of the in-records

An in-record is for a face that is in the face table. Faces are never taken out
of it, and NFD makes an in-record only for the face an Interest has come in
through. -/

variable {node : Node τ}

/-- The face that an Interest comes from is in the table by then. -/
theorem isSome_of_brought {e : Event} (hguard : node.guard e) {face : ℕ} {interest : Interest}
    (h : node.brought e = some (face, interest)) :
    ((node.arrived e).val.faces.get face).isSome := by
  cases e with
  | receive netFace valP =>
    obtain ⟨⟨f, hget, -⟩, -⟩ := ValForwarder.toNfd_interest (eq_of_brought_receive h)
    exact isSome_iff_exists.mpr ⟨f, hget⟩
  | incomingInterest inFace interest' =>
    cases h
    obtain ⟨f, hget, -⟩ := hguard
    exact isSome_iff_exists.mpr ⟨f, hget⟩
  | _ => cases h

theorem FacesKnown.next {P : Platform τ} {g : Geometry} (h : node.FacesKnown) {e : Event}
    (hguard : node.guard e) : (node.next P g e).FacesKnown := by
  have hacted : Acted (fun id => ((node.arrived e).val.faces.get id).isSome) (fun _ => True)
      (fun _ => True) (node.arrived e) (node.next P g e) :=
    acted_next P g node e (fun _ _ hbrought =>
      ⟨isSome_of_brought hguard hbrought, trivial, fun _ _ => ⟨trivial, trivial⟩⟩)
      fun _ _ => trivial
  intro entry hentry r hr
  rw [hacted.faces]
  -- The record was there before, or it is for the face of the Interest.
  rcases hacted.pit.hasInRecord ⟨entry, hentry, r, hr, rfl⟩ with hold | hnew
  · rw [pit_arrived] at hold
    obtain ⟨old, hmem, r', hr', hface⟩ := hold
    obtain ⟨face, hget⟩ := isSome_iff_exists.mp (h old hmem r' hr')
    rw [hface] at hget
    exact isSome_iff_exists.mpr ⟨face, node.extends_arrived e _ _ hget⟩
  · exact hnew

theorem facesKnown_of_reachable {P : Platform τ} {g : Geometry} (h : (system P g).Reachable node) :
    node.FacesKnown := by
  refine h.invariant ?_ fun _ _ ht hguard => ht.next hguard
  rintro node ⟨faces, mobility, store, face, -, -, rfl⟩ entry hentry
  cases hentry

end Node

end ValProofs
