import ValProofs.Nfd.Notices

/-!
A node as a machine that reacts to events: packets from the network and from
local faces, the timers of VAL and of the PIT, and changes of faces, routes and
position. Nothing is assumed about what applications send.

The machine is a refinement of the one of its `ValForwarder`: an event of the
node is a few events of VAL, so what holds of VAL under an arbitrary NFD holds
of every node.
-/

namespace ValProofs

open Lib Pit.Table List
open ValForwarder (machine flatGeometry netFace)

namespace Node

variable {τ : Type}

inductive Event
  | receive (face : ℕ) (valP : ValPacket)
  | incomingInterest (face : ℕ) (interest : Interest)
  | incomingData (face : ℕ) (data : Data)
  | incomingNack (face : ℕ) (interest : Interest)
  | fire (id : ℕ)
  | interestFinalize (id : ℕ)
  | elapse (duration : ℕ)
  | addFace (face : Face)
  | addRoute (name : Name) (faceId cost : ℕ)
  | move (mobility : Mobility)

def next (P : Platform τ) (g : Geometry) (node : Node τ) : Event → Node τ
  | .receive face valP => node.onReceivedValPacket P g face valP
  | .incomingInterest face interest => node.onIncomingInterest P g face interest
  | .incomingData face data => node.onIncomingData P g face data
  | .incomingNack face interest => node.onIncomingNack face interest
  | .fire id => { node with val := node.val.fire id }
  | .interestFinalize id => node.onInterestFinalize P id
  | .elapse duration => { node with now := node.now + duration }
  | .addFace face => { node with val := node.val.addFace face }
  | .addRoute name faceId cost => node.addRoute name faceId cost
  | .move mobility => { node with val := { node.val with mobility := mobility } }

/-- The face is there and is not one that VAL has made. -/
def OwnFace (node : Node τ) (faceId : ℕ) : Prop :=
  ∃ face, node.val.faces.get faceId = some face ∧ face.isGeoFace = false

theorem OwnFace.isGeoFace {node : Node τ} {face : ℕ} (h : node.OwnFace face) :
    node.isGeoFace face = false := by
  obtain ⟨f, hget, hgeo⟩ := h
  rw [Node.isGeoFace, FaceTable.has, hget]
  exact hgeo

def guard (node : Node τ) : Event → Prop
  | .receive face _ => face ∈ node.val.networkFaces
  | .incomingInterest face _ => node.OwnFace face
  | .incomingData face _ => node.OwnFace face
  | .incomingNack face _ => node.OwnFace face
  | .fire id => ∃ callback, node.val.pending.queue.Pending id callback
  | .interestFinalize id =>
      ∃ entry time, node.pit.get id = some entry ∧ entry.expiryTimer = some time ∧
        time ≤ node.now
  | .addFace face => face.isGeoFace = false
  | _ => True

def Init (node : Node τ) : Prop :=
  ∃ faces mobility store face, face.isValNetFace = true ∧ face.isGeoFace = false ∧
    node = { construct faces mobility store with
      val := (construct faces mobility store).val.addFace face }

def system (P : Platform τ) (g : Geometry) : System (Node τ) Event where
  init := Init
  guard := guard
  next := next P g

/-! ### What an Interest does -/

/-- VAL, the clock and the in-records are as they were. -/
structure Untouched (id : ℕ) (node node' : Node τ) : Prop where
  val : node'.val = node.val
  now : node'.now = node.now
  pit : Pit.Table.Alters (fun entry => entry) [id] node.pit node'.pit

/-- The in-records are as they were, and VAL may have got an Interest. -/
structure Forwarded (g : Geometry) (id : ℕ) (node node' : Node τ) : Prop where
  val : node'.val = node.val ∨
    ∃ geoface interest, node'.val = node.val.reveiceInterest g geoface interest
  now : node'.now = node.now
  pit : Pit.Table.Alters (fun entry => entry) [id] node.pit node'.pit

theorem untouched_modifyPit (node : Node τ) (id : ℕ) (f : Pit.Entry → Pit.Entry)
    (hf : ∀ entry : Pit.Entry, entry.SameRecords (f entry)) :
    Untouched id node (node.modifyPit id f) :=
  ⟨rfl, rfl, alters_modify_of_same hf id node.pit⟩

theorem untouched_setExpiryTimer (node : Node τ) (id duration : ℕ) :
    Untouched id node (node.setExpiryTimer id duration) :=
  untouched_modifyPit node id _ fun _ => ⟨rfl, rfl⟩

theorem Untouched.refl (id : ℕ) (node : Node τ) : Untouched id node node :=
  ⟨rfl, rfl, alters_refl [id] node.pit⟩

variable {id : ℕ} {node node' : Node τ}

theorem Untouched.addRoute (h : Untouched id node node') (name : Name) (faceId cost : ℕ) :
    Untouched id node (node'.addRoute name faceId cost) :=
  ⟨h.val, h.now, h.pit⟩

variable {g : Geometry}

theorem Untouched.forwarded {node'' : Node τ} (h : Untouched id node node')
    (h' : Forwarded g id node' node'') : Forwarded g id node node'' where
  val := by
    rw [← h.val]
    exact h'.val
  now := h'.now.trans h.now
  pit := h.pit.trans h'.pit fun _ _ hsame => hsame

theorem Untouched.toForwarded (h : Untouched id node node') (g : Geometry) :
    Forwarded g id node node' :=
  ⟨.inl h.val, h.now, h.pit⟩

theorem forwarded_onOutgoingInterest (g : Geometry) (node : Node τ) (id outFace : ℕ)
    (interest : Interest) :
    Forwarded g id node (node.onOutgoingInterest g id outFace interest) := by
  have hout : Untouched id node (node.modifyPit id fun entry =>
      entry.insertOrUpdateOutRecord node.now outFace interest) :=
    untouched_modifyPit node id _ fun _ => ⟨rfl, rfl⟩
  unfold onOutgoingInterest
  dsimp only
  split
  · exact ⟨.inr ⟨outFace, interest, rfl⟩, rfl, hout.pit⟩
  · exact ⟨.inl rfl, rfl, hout.pit⟩

theorem forwarded_afterReceiveInterest (g : Geometry) (node : Node τ) (id inFace : ℕ)
    (pitInterest interest : Interest) :
    Forwarded g id node (node.afterReceiveInterest g id inFace pitInterest interest) := by
  unfold afterReceiveInterest
  dsimp only
  split
  · exact (untouched_setExpiryTimer node id 0).toForwarded g
  · exact forwarded_onOutgoingInterest g node id _ interest

theorem untouched_chooseNextHop (node : Node τ) (id inFace : ℕ) (isNew : Bool) (nextHopFaceId : ℕ)
    (interest : Interest) :
    Untouched id node (node.chooseNextHop id inFace isNew nextHopFaceId interest).1 := by
  unfold chooseNextHop
  dsimp only
  split
  · split
    · split
      · split
        · exact untouched_modifyPit node id _ fun _ => ⟨rfl, rfl⟩
        · exact .refl id node
      · exact .refl id node
    · exact (Untouched.refl id node).addRoute _ _ _
  · exact .refl id node

/-- An Interest that is not answered from the content store gets an in-record. -/
theorem onContentStoreMiss_spec (g : Geometry) (node : Node τ) (id inFace : ℕ) (isNew : Bool)
    (interest : Interest) :
    let node' := node.onContentStoreMiss g id inFace isNew interest
    (node'.val = node.val ∨
        ∃ geoface i, node'.val = node.val.reveiceInterest g geoface i) ∧
      node'.now = node.now ∧
      Alters (fun entry => entry.insertOrUpdateInRecord node.now inFace interest) [id]
        node.pit node'.pit := by
  have hrecord := alters_modify
    (fun entry => entry.insertOrUpdateInRecord node.now inFace interest) id node.pit
  intro node'
  suffices h : Forwarded g id (node.modifyPit id fun entry =>
      entry.insertOrUpdateInRecord node.now inFace interest) node' from
    ⟨h.val, h.now, hrecord.trans h.pit fun _ _ hsame => hsame⟩
  unfold node' onContentStoreMiss
  dsimp only
  generalize (node.modifyPit id fun entry =>
    entry.insertOrUpdateInRecord node.now inFace interest) = recorded
  generalize hdur : (((recorded.pit.get id).map Pit.Entry.lastExpiry).getD 0 - recorded.now) /
    1000000 = duration
  have htimer := untouched_setExpiryTimer recorded id duration
  split
  · rename_i nextHopFaceId _
    split
    · exact htimer.toForwarded g
    · apply htimer.forwarded
      have hchoose := untouched_chooseNextHop (recorded.setExpiryTimer id duration) id inFace
        isNew nextHopFaceId interest
      split
      · exact (hchoose.addRoute _ _ _).forwarded (forwarded_onOutgoingInterest ..)
      · exact hchoose.forwarded (forwarded_onOutgoingInterest ..)
  · exact htimer.forwarded (forwarded_afterReceiveInterest ..)

variable {entry : Pit.Entry}

theorem alters_deleteInRecord {pit : Pit.Table} (hget : pit.get entry.id = some entry)
    (hempty : entry.inRecords = []) (faceId : ℕ) :
    Alters (fun e => e) [entry.id] pit
      (pit.modify entry.id fun e => e.deleteInRecord faceId) :=
  (alters_modify _ entry.id pit).congr fun id hid e he => by
    obtain rfl := mem_singleton.mp hid
    obtain rfl := Option.some.inj (he.symm.trans hget)
    rw [Pit.Entry.deleteInRecord, hempty]
    exact .refl e

/-- An Interest of a geoface that the content store answers: VAL gets the nonces
that the entry lists. -/
theorem afterContentStoreHit_spec (g : Geometry) {entry' : Pit.Entry}
    (hget : node.pit.get entry.id = some entry') (hempty : entry'.inRecords = []) (inFace : ℕ)
    (data : Data) :
    let node' := node.afterContentStoreHit g entry inFace data
    (node'.val = node.val ∨ node.isGeoFace inFace = true ∧ ∃ geoface,
        node'.val = node.val.reveiceData g geoface data (some entry.nonceList) false) ∧
      node'.now = node.now ∧
      Alters (fun e => e) [entry.id] node.pit node'.pit := by
  have hdelete : ∀ faceId, Alters (fun e => e) [entry.id] node.pit
      (node.pit.modify entry.id fun e => e.deleteInRecord faceId) := fun faceId => by
    have hid := (get_eq_some.mp hget).2
    rw [← hid] at hget ⊢
    exact alters_deleteInRecord hget hempty faceId
  unfold afterContentStoreHit
  dsimp only
  cases hgeo : node.isGeoFace inFace with
  | true =>
    rw [if_pos rfl]
    split
    · exact ⟨.inl rfl, rfl, alters_refl _ _⟩
    · rename_i nextHop hfind
      have hout : node.isGeoFace nextHop.faceId = true := by
        simpa using find?_some hfind
      have hout' : (node.modifyPit entry.id fun e =>
        e.deleteInRecord nextHop.faceId).isGeoFace nextHop.faceId = true := hout
      simp only [sendDataToVal, onOutgoingData, hout', if_true]
      split
      · exact ⟨.inl rfl, rfl, hdelete _⟩
      · exact ⟨.inr ⟨trivial, nextHop.faceId, rfl⟩, rfl, hdelete _⟩
  | false =>
    rw [if_neg Bool.false_ne_true]
    obtain ⟨new, -, hsend⟩ := sendData_eq g node hgeo entry.id data
    rw [hsend]
    exact ⟨.inl rfl, rfl, hdelete _⟩

theorem onContentStoreHit_spec (g : Geometry) (node : Node τ)
    (hget : node.pit.get entry.id = some entry) (hempty : entry.inRecords = []) (inFace : ℕ)
    (data : Data) :
    let node' := node.onContentStoreHit g entry inFace data
    (node'.val = node.val ∨ node.isGeoFace inFace = true ∧ ∃ geoface,
        node'.val = node.val.reveiceData g geoface data (some entry.nonceList) false) ∧
      node'.now = node.now ∧
      Alters (fun e => e) [entry.id] node.pit node'.pit := by
  have hmark : Untouched entry.id node (node.modifyPit entry.id fun e =>
      { e with isSatisfied := true, dataFreshnessPeriod := data.freshnessPeriod }) :=
    untouched_modifyPit node entry.id _ fun _ => ⟨rfl, rfl⟩
  have htimer := untouched_setExpiryTimer (node.modifyPit entry.id fun e =>
    { e with isSatisfied := true, dataFreshnessPeriod := data.freshnessPeriod }) entry.id 0
  have hpit := hmark.pit.trans htimer.pit fun _ _ hsame => hsame
  obtain ⟨entry', hget', hsame⟩ := hpit.self entry.id mem_cons_self entry hget
  obtain ⟨hval, hnow, hpit'⟩ := afterContentStoreHit_spec g hget'
    (hsame.inRecords.trans hempty) inFace data
  exact ⟨hval, hnow, hpit.trans hpit' fun _ _ hsame => hsame⟩

/-- The state after `onIncomingInterest`. The Interest may have lost its
forwarding hint. -/
inductive Asked (P : Platform τ) (g : Geometry) (node : Node τ) (inFace : ℕ)
    (interest : Interest) (node' : Node τ) : Prop
  | ignored (hpit : node'.pit = node.pit) (hnow : node'.now = node.now)
      (hval : node'.val = node.val)
  | hit (hint : List Name) (data : Data)
      (hstore : (P.contentStoreLookup node.store
        { interest with forwardingHint := hint }).2 = some data)
      (hempty : (node.pit.insert { interest with forwardingHint := hint }).2.1.inRecords = [])
      (hpit : Pit.Table.Alters (fun e => e)
        [(node.pit.insert { interest with forwardingHint := hint }).2.1.id]
        (node.pit.insert { interest with forwardingHint := hint }).1 node'.pit)
      (hnow : node'.now = node.now)
      (hval : node'.val = node.val ∨ node.isGeoFace inFace = true ∧ ∃ geoface,
        node'.val = node.val.reveiceData g geoface data
          (some (node.pit.insert { interest with forwardingHint := hint }).2.1.nonceList) false)
  | missed (hint : List Name)
      (hdup : node.hasDuplicateNonce
        (node.pit.insert { interest with forwardingHint := hint }).2.1 inFace
        { interest with forwardingHint := hint } = false)
      (hpit : Pit.Table.Alters (fun e => e.insertOrUpdateInRecord node.now inFace
          { interest with forwardingHint := hint })
        [(node.pit.insert { interest with forwardingHint := hint }).2.1.id]
        (node.pit.insert { interest with forwardingHint := hint }).1 node'.pit)
      (hnow : node'.now = node.now)
      (hval : node'.val = node.val ∨
        ∃ geoface i, node'.val = node.val.reveiceInterest g geoface i)

/-- A new entry has no records, so no nonce is there twice. -/
theorem hasDuplicateNonce_make (node : Node τ) (id inFace : ℕ) (interest interest' : Interest) :
    node.hasDuplicateNonce (Pit.Entry.make id interest) inFace interest' = false := by
  rw [hasDuplicateNonce, Pit.Entry.hasDuplicateNonce]
  split <;> rfl

theorem onInterestLoop_eq (node : Node τ) (inFace : ℕ) (interest : Interest) :
    ∃ sent, node.onInterestLoop inFace interest = { node with sent := sent } := by
  unfold onInterestLoop
  split
  · exact ⟨_, rfl⟩
  · exact ⟨node.sent, rfl⟩

theorem asked_enterInterest (P : Platform τ) (g : Geometry) (node : Node τ) (inFace : ℕ)
    (interest : Interest) (hint : List Name) :
    Asked P g node inFace interest
      (node.enterInterest P g inFace { interest with forwardingHint := hint }) := by
  rw [enterInterest]
  have hget := get_eq_some.mpr
    ⟨node.pit.mem_insert { interest with forwardingHint := hint }, rfl⟩
  have hcases := node.pit.insert_cases { interest with forwardingHint := hint }
  cases hinsert : node.pit.insert { interest with forwardingHint := hint } with
  | mk pit rest =>
    obtain ⟨entry, isNew⟩ := rest
    simp only [hinsert] at hget hcases ⊢
    have hmissed : ∀ store, node.hasDuplicateNonce entry inFace
        { interest with forwardingHint := hint } = false →
        Asked P g node inFace interest
          (({ node with pit := pit, store := store } : Node τ).onContentStoreMiss g entry.id
            inFace isNew { interest with forwardingHint := hint }) := by
      intro store hdup
      obtain ⟨hval, hnow, hpit⟩ := onContentStoreMiss_spec g
        { node with pit := pit, store := store } entry.id inFace isNew
        { interest with forwardingHint := hint }
      exact .missed hint (by rw [hinsert]; exact hdup) (by rw [hinsert]; exact hpit) hnow hval
    cases hdup : node.hasDuplicateNonce entry inFace
        { interest with forwardingHint := hint } with
    | true =>
      have hdup' : ({ node with pit := pit } : Node τ).hasDuplicateNonce entry inFace
        { interest with forwardingHint := hint } = true := hdup
      obtain ⟨sent, hloop⟩ := onInterestLoop_eq { node with pit := pit } inFace
        { interest with forwardingHint := hint }
      rw [if_pos hdup', hloop]
      rcases hcases with ⟨found, -, heq⟩ | ⟨-, -, heq⟩
      · cases heq
        exact .ignored rfl rfl rfl
      · cases heq
        rw [hasDuplicateNonce_make] at hdup
        cases hdup
    | false =>
      have hdup' : ({ node with pit := pit } : Node τ).hasDuplicateNonce entry inFace
        { interest with forwardingHint := hint } = false := hdup
      rw [if_neg (Bool.eq_false_iff.mp hdup')]
      cases hrecords : entry.inRecords with
      | cons r records => exact hmissed node.store hdup
      | nil =>
        rw [if_pos isEmpty_nil]
        cases hlookup : P.contentStoreLookup node.store
            { interest with forwardingHint := hint } with
        | mk store found =>
          cases found with
          | none => exact hmissed store hdup
          | some data =>
            obtain ⟨hval, hnow, hpit⟩ := onContentStoreHit_spec g
              { node with pit := pit, store := store } hget hrecords inFace data
            exact .hit hint data (by rw [hlookup]) (by rw [hinsert]; exact hrecords)
              (by rw [hinsert]; exact hpit) hnow (by rw [hinsert]; exact hval)

theorem asked (P : Platform τ) (g : Geometry) (node : Node τ) (inFace : ℕ) (interest : Interest) :
    Asked P g node inFace interest (node.onIncomingInterest P g inFace interest) := by
  rw [onIncomingInterest]
  split
  · exact .ignored rfl rfl rfl
  · split
    · obtain ⟨sent, hloop⟩ := onInterestLoop_eq node inFace interest
      rw [hloop]
      exact .ignored rfl rfl rfl
    · rw [withoutHint]
      split
      · exact asked_enterInterest P g node inFace interest []
      · exact asked_enterInterest P g node inFace interest interest.forwardingHint

/-! ### A node runs its VAL -/

theorem run_reveiceData (g : Geometry) (v : ValForwarder) (inGeoface : ℕ) (data : Data)
    {nonceList : Option (List Nonce)} (isProducer : Bool)
    (hnull : nonceList = none → data.getCongestionMark = 501) :
    (machine g).Run v [.dataFromNfd inGeoface data nonceList isProducer]
      (v.reveiceData g inGeoface data nonceList isProducer) :=
  .single (M := machine g) hnull

theorem run_foldl_notify (g : Geometry) (notices : List Notice) (s : ValForwarder × Data) :
    ∃ es, (machine g).Run s.1 es (notices.foldl (Notice.notify g) s).1 := by
  induction notices generalizing s with
  | nil => exact ⟨[], .nil _⟩
  | cons notice notices ih =>
    obtain ⟨es, hrun⟩ := ih (Notice.notify g s notice)
    have hfirst := run_reveiceData g s.1 notice.faceId (notice.mark s.2)
      notice.isProducer fun h : some notice.nonceList = none => nomatch h
    exact ⟨_, hfirst.append hrun⟩

variable {P : Platform τ}

theorem Handled.run {inFace : ℕ} {data : Data} (h : Handled P g node inFace data node') :
    ∃ es, (machine g).Run node.val es node'.val := by
  cases h with
  | dropped _ _ _ hval =>
    rw [hval]
    exact ⟨[], .nil _⟩
  | unsolicited _ isProducer _ _ hval =>
    rw [hval]
    exact ⟨_, run_reveiceData g node.val inFace _ isProducer fun _ => rfl⟩
  | satisfied _ _ _ hval =>
    rw [hval]
    exact run_foldl_notify g _ (node.val, data)

theorem Asked.run {inFace : ℕ} {interest : Interest} (h : Asked P g node inFace interest node') :
    ∃ es, (machine g).Run node.val es node'.val := by
  cases h with
  | ignored _ _ hval =>
    rw [hval]
    exact ⟨[], .nil _⟩
  | hit hint data _ _ _ _ hval =>
    rcases hval with hval | ⟨-, geoface, hval⟩
    · rw [hval]
      exact ⟨[], .nil _⟩
    · rw [hval]
      exact ⟨_, run_reveiceData g node.val geoface data false fun h => nomatch h⟩
  | missed hint _ _ _ hval =>
    rcases hval with hval | ⟨geoface, i, hval⟩
    · rw [hval]
      exact ⟨[], .nil _⟩
    · rw [hval]
      exact ⟨[.interestFromNfd geoface i], .single (M := machine g) trivial⟩

theorem untouched_onIncomingNack (node : Node τ) (inFace : ℕ) (interest : Interest) :
    ∃ id, Untouched id node (node.onIncomingNack inFace interest) := by
  have hrefl : ∃ id, Untouched id node node := ⟨0, .refl 0 node⟩
  rw [onIncomingNack]
  split
  · exact hrefl
  · split
    · exact hrefl
    · split
      · exact hrefl
      · rename_i entry _ _ _ _
        split
        · exact hrefl
        · have hnack := untouched_modifyPit node entry.id
            (fun e => e.setIncomingNack inFace) fun _ => ⟨rfl, rfl⟩
          refine ⟨entry.id, ?_⟩
          dsimp only
          split
          · exact hnack
          · have htimer := untouched_setExpiryTimer (node.modifyPit entry.id fun e =>
              e.setIncomingNack inFace) entry.id 0
            exact ⟨htimer.val.trans hnack.val, htimer.now.trans hnack.now,
              hnack.pit.trans htimer.pit fun _ _ hsame => hsame⟩

/-- The entry goes, and nothing else that VAL can see. -/
theorem onInterestFinalize_spec (P : Platform τ) (node : Node τ) (id : ℕ) :
    let node' := node.onInterestFinalize P id
    node'.val = node.val ∧ node'.now = node.now ∧
      ∀ id' entry, node'.pit.get id' = some entry → node.pit.get id' = some entry := by
  rw [onInterestFinalize]
  cases hget : node.pit.get id with
  | none => exact ⟨rfl, rfl, fun _ _ h => h⟩
  | some entry =>
    obtain ⟨records, hstore⟩ := insertDeadNonceList_eq P entry none
    dsimp only
    rw [hstore]
    exact ⟨rfl, rfl, fun _ _ h => get_of_erase h⟩

/-- VAL is given what a node's own event gives it. -/
theorem run_next {e : Event} (hguard : node.guard e) :
    ∃ es, (machine g).Run node.val es (node.next P g e).val := by
  have hstep : ∀ e : ValForwarder.Event, node.val.guard e →
      ∃ es, (machine g).Run node.val es (node.val.next g e) :=
    fun e he => ⟨[e], .single (M := machine g) he⟩
  have hsame : ∀ v, v = node.val → ∃ es, (machine g).Run node.val es v := by
    rintro v rfl
    exact ⟨[], .nil _⟩
  cases e with
  | receive face valP =>
    have hreceive : (machine g).Run node.val [.receive face valP]
      (node.val.onReceivedValPacket face valP).1 := .single (M := machine g) hguard
    simp only [next, onReceivedValPacket]
    cases hrec : node.val.onReceivedValPacket face valP with
    | mk v packet =>
      rw [hrec] at hreceive
      cases packet with
      | none => exact ⟨_, hreceive⟩
      | some packet =>
        cases packet with
        | interest geoface interest =>
          obtain ⟨es, hrun⟩ := (asked P g { node with val := v } geoface interest).run
          exact ⟨_, hreceive.append hrun⟩
        | data geoface data =>
          obtain ⟨es, hrun⟩ := (handled P g { node with val := v } geoface data).run
          exact ⟨_, hreceive.append hrun⟩
  | incomingInterest face interest => exact (asked P g node face interest).run
  | incomingData face data => exact (handled P g node face data).run
  | incomingNack face interest =>
    obtain ⟨id, huntouched⟩ := untouched_onIncomingNack node face interest
    exact hsame _ huntouched.val
  | fire id => exact hstep (.fire id) hguard
  | interestFinalize id => exact hsame _ (onInterestFinalize_spec P node id).1
  | elapse duration => exact hsame _ rfl
  | addFace face => exact hstep (.addFace face) trivial
  | addRoute name faceId cost => exact hsame _ rfl
  | move mobility => exact hstep (.move mobility) trivial

/-- What is proved of VAL under an NFD that may do anything holds of every
node. -/
theorem val_reachable (h : (system P g).Reachable node) : (machine g).Reachable node.val := by
  refine h.simulate Node.val ?_ fun node e hguard => run_next hguard
  rintro node ⟨faces, mobility, store, face, hface, -, rfl⟩
  exact ⟨faces, mobility, face, hface, rfl⟩

theorem faces_extends_next (h : (system P g).Reachable node) {e : Event} (hguard : node.guard e) :
    (node.next P g e).val.faces.Extends node.val.faces := by
  obtain ⟨es, hrun⟩ := run_next (P := P) (g := g) hguard
  exact (ValForwarder.sound_of_reachable (val_reachable h)).extends_run hrun

/-- A VAL that has not seen a packet yet. -/
def idle (faces : FaceTable) : ValForwarder where
  ifnt := []
  dfnt := []
  f2a := []
  networkFaces := []
  faces := faces
  pending := Pft.Pending.empty
  invalidIN := 0
  mobility := ⟨"", "", 0⟩
  calls := []

/-! ### A node that is consumer and relay -/

/-- Nothing is cached, and an Interest asks for Data with its own name. -/
def samplePlatform : Platform Unit where
  matchesData interest data := interest.name == data.name
  contentStoreLookup store _ := (store, none)
  contentStoreAdd store _ := store
  deadNonceListHas _ _ _ := false
  deadNonceListAdd store _ _ := store
  deadNonceListLifetime := 6000
  isInProducerRegion _ := false
  setOrder faces := faces
  perm_setOrder _ := .refl _
  matchOrder ids := ids
  perm_matchOrder _ := .refl _

def freshNode : Node Unit :=
  { construct .empty ⟨"0:0:0", "A1", 10000⟩ () with val := ValForwarder.fresh }

/-- The same Interest from another vehicle. -/
def heardInterest : ValPacket where
  valHeader := ⟨"A2", "0", "5:0:0", "/a", 9⟩
  payload := .interest { ValForwarder.sampleInterest with nonce := 8 }

/-- The answer, from area `A3`. -/
def heardData : ValPacket where
  valHeader := ⟨"A3", "A2", "9:0:0", "/a", 5⟩
  payload := .data ValForwarder.sampleData

/-- An application gets face 258 and asks for `/a/1`, and so does area `A2`, which
gets geoface 259. -/
def consumerAndRelay : List Event :=
  [.addFace makeAppFace, .incomingInterest 258 ValForwarder.sampleInterest,
    .receive 257 heardInterest]

def consumingRelay : Node Unit :=
  consumerAndRelay.foldl (next samplePlatform ValForwarder.flatGeometry) freshNode

theorem consumingRelay_reachable :
    (system samplePlatform flatGeometry).Reachable consumingRelay := by
  have hstart : (system samplePlatform flatGeometry).Reachable freshNode :=
    .of_init ⟨_, _, (), netFace, rfl, rfl, rfl⟩
  refine hstart.foldl (.cons ?_ (.cons ?_ (.cons ?_ (.nil _))))
  · exact (rfl : makeAppFace.isGeoFace = false)
  · exact Exists.intro makeAppFace ⟨rfl, rfl⟩
  · exact mem_singleton.mpr rfl

end Node

end ValProofs
