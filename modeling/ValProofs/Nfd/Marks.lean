import ValProofs.Nfd.Deliveries

/-!
Two runs of a node that differ only in the marks of the Data they are given. NFD
never looks at a mark, so its tables go through the same changes in both, and it
makes the same calls of `reveiceData` up to the marks. As long as control stays
local, the two VALs then do the same as well.
-/

namespace ValProofs

open ValForwarder List Pit

/-- The content store does not look at marks. `B` relates two of its states that
hold the same Data, with other marks. -/
structure Platform.MarkBlind {τ : Type} (P : Platform τ) (B : τ → τ → Prop) : Prop where
  refl : ∀ store, B store store
  matchesData : ∀ {data data' : Data}, data'.unmark = data.unmark → ∀ interest,
    P.matchesData interest data' = P.matchesData interest data
  lookup : ∀ {store store'}, B store store' → ∀ interest,
    B (P.contentStoreLookup store interest).1 (P.contentStoreLookup store' interest).1 ∧
      (P.contentStoreLookup store' interest).2.map Data.unmark =
        (P.contentStoreLookup store interest).2.map Data.unmark
  add : ∀ {store store'}, B store store' → ∀ {data data' : Data},
    data'.unmark = data.unmark → B (P.contentStoreAdd store data) (P.contentStoreAdd store' data')
  deadNonceListHas : ∀ {store store'}, B store store' → ∀ name nonce,
    P.deadNonceListHas store' name nonce = P.deadNonceListHas store name nonce
  deadNonceListAdd : ∀ {store store'}, B store store' → ∀ name nonce,
    B (P.deadNonceListAdd store name nonce) (P.deadNonceListAdd store' name nonce)

namespace Node

variable {τ : Type}

/-- Two nodes with the same tables, whose VALs are related by `V`. -/
structure Alike (V : ValForwarder → ValForwarder → Prop) (B : τ → τ → Prop)
    (node node' : Node τ) : Prop where
  val : V node.val node'.val
  faces : node'.val.faces = node.val.faces
  pit : node'.pit = node.pit
  fib : node'.fib = node.fib
  store : B node.store node'.store
  now : node'.now = node.now

namespace Alike

variable {V : ValForwarder → ValForwarder → Prop} {B : τ → τ → Prop} {node node' : Node τ}

section

variable (h : Alike V B node node')
include h

theorem isGeoFace : node'.isGeoFace = node.isGeoFace := by
  funext faceId
  rw [Node.isGeoFace, Node.isGeoFace, h.faces]

theorem isAppFace : node'.isAppFace = node.isAppFace := by
  funext faceId
  rw [Node.isAppFace, Node.isAppFace, h.faces]

theorem isValNetFace : node'.isValNetFace = node.isValNetFace := by
  funext faceId
  rw [Node.isValNetFace, Node.isValNetFace, h.faces]

theorem isNonLocal : node'.isNonLocal = node.isNonLocal := by
  funext faceId
  rw [Node.isNonLocal, Node.isNonLocal, h.faces]

theorem isPointToPoint : node'.isPointToPoint = node.isPointToPoint := by
  funext faceId
  rw [Node.isPointToPoint, Node.isPointToPoint, h.faces]

theorem wouldViolateScope : node'.wouldViolateScope = node.wouldViolateScope := by
  funext inFace interest outFace
  rw [Node.wouldViolateScope, Node.wouldViolateScope, h.isNonLocal]

theorem lookupFib : node'.lookupFib = node.lookupFib := by
  funext interest
  rw [Node.lookupFib, Node.lookupFib, h.fib]

theorem isProducerOf : node'.isProducerOf = node.isProducerOf := by
  funext name
  rw [Node.isProducerOf, Node.isProducerOf, h.fib, h.isAppFace]

theorem hasDuplicateNonce : node'.hasDuplicateNonce = node.hasDuplicateNonce := by
  funext entry inFace interest
  rw [Node.hasDuplicateNonce, Node.hasDuplicateNonce, h.isPointToPoint, h.isGeoFace]

/-! ### Tables -/

theorem modifyPit (id : ℕ) (f : Entry → Entry) :
    Alike V B (node.modifyPit id f) (node'.modifyPit id f) :=
  { h with pit := congrArg (Table.modify · id f) h.pit }

theorem setExpiryTimer (id duration : ℕ) :
    Alike V B (node.setExpiryTimer id duration) (node'.setExpiryTimer id duration) := by
  rw [Node.setExpiryTimer, Node.setExpiryTimer, h.now]
  exact h.modifyPit id _

theorem addRoute (name : Name) (faceId cost : ℕ) :
    Alike V B (node.addRoute name faceId cost) (node'.addRoute name faceId cost) :=
  { h with fib := congrArg (Fib.addRoute · name faceId cost) h.fib }

theorem withPit (pit : Table) : Alike V B { node with pit := pit } { node' with pit := pit } :=
  { h with pit := rfl }

theorem withStore {store store' : τ} (hstore : B store store') :
    Alike V B { node with store := store } { node' with store := store' } :=
  { h with store := hstore }

theorem withSent (sent sent' : List Sent) :
    Alike V B { node with sent := sent } { node' with sent := sent' } :=
  { h with }

theorem withVal {W : ValForwarder → ValForwarder → Prop} {v v' : ValForwarder} (hval : W v v')
    (hfaces : v'.faces = v.faces) : Alike W B { node with val := v } { node' with val := v' } :=
  { h with val := hval, faces := hfaces }

end

theorem insertDeadNonceList {P : Platform τ} (hP : P.MarkBlind B) (h : Alike V B node node')
    (entry : Entry) (upstream : Option ℕ) :
    Alike V B (node.insertDeadNonceList P entry upstream)
      (node'.insertDeadNonceList P entry upstream) := by
  have hadd : ∀ (records : List OutRecord) {store store' : τ}, B store store' →
      B (records.foldl (fun store r =>
          P.deadNonceListAdd store entry.interest.name r.lastNonce) store)
        (records.foldl (fun store r =>
          P.deadNonceListAdd store entry.interest.name r.lastNonce) store') := by
    intro records
    induction records with
    | nil => exact fun hstore => hstore
    | cons r records ih => exact fun hstore => ih (hP.deadNonceListAdd hstore _ _)
  obtain ⟨records, heq⟩ := insertDeadNonceList_eq P entry upstream
  rw [heq, heq]
  exact h.withStore (hadd records h.store)

theorem onInterestFinalize {P : Platform τ} (hP : P.MarkBlind B) (h : Alike V B node node')
    (id : ℕ) : Alike V B (node.onInterestFinalize P id) (node'.onInterestFinalize P id) := by
  rw [Node.onInterestFinalize, Node.onInterestFinalize, h.pit]
  split
  · exact h
  · have hdead := h.insertDeadNonceList hP ‹_› none
    dsimp only
    rw [hdead.pit]
    exact hdead.withPit _

theorem onIncomingNack (h : Alike V B node node') (inFace : ℕ) (interest : Interest) :
    Alike V B (node.onIncomingNack inFace interest) (node'.onIncomingNack inFace interest) := by
  rw [Node.onIncomingNack, Node.onIncomingNack, h.isPointToPoint, h.pit]
  split
  · exact h
  · split
    · exact h
    · rename_i found _
      split
      · exact h
      · split
        · exact h
        · have hmark := h.modifyPit found.id fun entry => entry.setIncomingNack inFace
          dsimp only
          rw [hmark.now]
          split
          · exact hmark
          · exact hmark.setExpiryTimer _ 0

theorem onInterestLoop (h : Alike V B node node') (inFace : ℕ) (interest : Interest) :
    Alike V B (node.onInterestLoop inFace interest) (node'.onInterestLoop inFace interest) := by
  rw [Node.onInterestLoop, Node.onInterestLoop, h.isPointToPoint, h.isGeoFace]
  split
  · exact h.withSent _ _
  · exact h

end Alike

/-! ### Interests -/

/-- The same VAL up to marks. -/
def Similar (v v' : ValForwarder) : Prop := v'.unmark = v.unmark

variable {v v' : ValForwarder}

theorem Similar.faces (h : Similar v v') : v'.faces = v.faces := by
  have hfaces := congrArg ValForwarder.faces h
  exact hfaces

theorem Similar.reveiceInterest (h : Similar v v') (g : Geometry) (inGeoface : ℕ)
    (interest : Interest) :
    Similar (v.reveiceInterest g inGeoface interest) (v'.reveiceInterest g inGeoface interest) := by
  rw [Similar, ← unmark_reveiceInterest, ← unmark_reveiceInterest, h]

namespace Alike

variable {B : τ → τ → Prop} {node node' : Node τ}

variable (h : Alike Similar B node node')
include h

theorem onOutgoingInterest (g : Geometry) (id outFace : ℕ) (interest : Interest) :
    Alike Similar B (node.onOutgoingInterest g id outFace interest)
      (node'.onOutgoingInterest g id outFace interest) := by
  have hout := h.modifyPit id fun entry => entry.insertOrUpdateOutRecord node.now outFace interest
  rw [Node.onOutgoingInterest, Node.onOutgoingInterest, h.now, hout.isGeoFace]
  split
  · have hval := hout.val.reveiceInterest g outFace interest
    exact hout.withVal hval hval.faces
  · exact hout.withSent _ _

theorem afterReceiveInterest (g : Geometry) (id inFace : ℕ) (pitInterest interest : Interest) :
    Alike Similar B (node.afterReceiveInterest g id inFace pitInterest interest)
      (node'.afterReceiveInterest g id inFace pitInterest interest) := by
  rw [Node.afterReceiveInterest, Node.afterReceiveInterest, h.lookupFib, h.isValNetFace,
    h.wouldViolateScope, h.isAppFace, h.isGeoFace]
  split
  · exact h.setExpiryTimer id 0
  · exact h.onOutgoingInterest g id _ interest

theorem chooseNextHop (id inFace : ℕ) (isNew : Bool) (nextHopFaceId : ℕ) (interest : Interest) :
    Alike Similar B (node.chooseNextHop id inFace isNew nextHopFaceId interest).1
        (node'.chooseNextHop id inFace isNew nextHopFaceId interest).1 ∧
      (node'.chooseNextHop id inFace isNew nextHopFaceId interest).2 =
        (node.chooseNextHop id inFace isNew nextHopFaceId interest).2 := by
  rw [Node.chooseNextHop, Node.chooseNextHop, h.fib, h.isGeoFace, h.isAppFace]
  dsimp only
  split
  · split
    · split
      · refine ⟨?_, rfl⟩
        split
        · exact h.modifyPit id _
        · exact h
      · exact ⟨h, rfl⟩
    · exact ⟨h.addRoute _ _ _, rfl⟩
  · exact ⟨h, rfl⟩

theorem onContentStoreMiss (g : Geometry) (id inFace : ℕ) (isNew : Bool) (interest : Interest) :
    Alike Similar B (node.onContentStoreMiss g id inFace isNew interest)
      (node'.onContentStoreMiss g id inFace isNew interest) := by
  have hin := h.modifyPit id fun entry => entry.insertOrUpdateInRecord node.now inFace interest
  rw [Node.onContentStoreMiss, Node.onContentStoreMiss, h.now]
  dsimp only
  rw [hin.pit, hin.now]
  generalize (((node.modifyPit id fun entry =>
    entry.insertOrUpdateInRecord node.now inFace interest).pit.get id).map
      Entry.lastExpiry).getD 0 = lastExpiry
  have htimer := hin.setExpiryTimer id
    ((lastExpiry - (node.modifyPit id fun entry =>
      entry.insertOrUpdateInRecord node.now inFace interest).now) / 1000000)
  generalize Node.setExpiryTimer (node.modifyPit id _) id _ = timed at htimer ⊢
  generalize Node.setExpiryTimer (node'.modifyPit id _) id _ = timed' at htimer ⊢
  split
  · rename_i nextHopFaceId _
    rw [htimer.faces]
    split
    · exact htimer
    · obtain ⟨hchosen, hsame⟩ := htimer.chooseNextHop id inFace isNew nextHopFaceId interest
      generalize timed.chooseNextHop id inFace isNew nextHopFaceId interest = chosen
        at hchosen hsame ⊢
      generalize timed'.chooseNextHop id inFace isNew nextHopFaceId interest = chosen'
        at hchosen hsame ⊢
      obtain ⟨reached, outFace, outgoing⟩ := chosen
      obtain ⟨reached', outFace', outgoing'⟩ := chosen'
      cases hsame
      dsimp only at hchosen ⊢
      rw [hchosen.isAppFace]
      split
      · exact (hchosen.addRoute _ _ _).onOutgoingInterest g id _ _
      · exact hchosen.onOutgoingInterest g id _ _
  · rw [htimer.pit]
    exact htimer.afterReceiveInterest g id inFace _ interest

end Alike

/-! ### Hits of the content store -/

variable {data data' : Data}

theorem Similar.reveiceData (h : Similar v v') (g : Geometry) (hdata : data'.unmark = data.unmark)
    {isProducer : Bool}
    (hbranch : v'.controlBranch data' isProducer = v.controlBranch data isProducer) (inGeoface : ℕ)
    (nonceList : Option (List Nonce)) :
    Similar (v.reveiceData g inGeoface data nonceList isProducer)
      (v'.reveiceData g inGeoface data' nonceList isProducer) :=
  unmark_reveiceData g h hdata hbranch inGeoface nonceList

theorem name_of_unmark (h : data'.unmark = data.unmark) : data'.name = data.name := by
  have hname := congrArg Data.name h
  exact hname

theorem freshnessPeriod_of_unmark (h : data'.unmark = data.unmark) :
    data'.freshnessPeriod = data.freshnessPeriod := by
  have hperiod := congrArg Data.freshnessPeriod h
  exact hperiod

namespace Alike

variable {V : ValForwarder → ValForwarder → Prop} {B : τ → τ → Prop} {node node' : Node τ}
  {data data' : Data}

section

variable (h : Alike V B node node') (hdata : data'.unmark = data.unmark)
  {g : Geometry} {outFace : ℕ} {nonceList : Option (List Nonce)} {isProducer : Bool}
  (hval : V (node.val.reveiceData g outFace data nonceList isProducer)
    (node'.val.reveiceData g outFace data' nonceList isProducer))
include h hdata hval

theorem onOutgoingData :
    Alike V B (node.onOutgoingData g data outFace nonceList isProducer)
      (node'.onOutgoingData g data' outFace nonceList isProducer) := by
  rw [Node.onOutgoingData, Node.onOutgoingData, h.isNonLocal, h.isGeoFace, name_of_unmark hdata]
  split
  · exact h
  · split
    · refine h.withVal hval ?_
      rw [faces_reveiceData, faces_reveiceData, h.faces]
    · exact h.withSent _ _

theorem sendDataToVal (id : ℕ) :
    Alike V B (node.sendDataToVal g id data outFace nonceList isProducer)
      (node'.sendDataToVal g id data' outFace nonceList isProducer) :=
  (h.modifyPit id _).onOutgoingData hdata hval

end

/-- A geoface gets nothing this way, so VAL does not come in. -/
theorem sendData (h : Alike V B node node') (g : Geometry) (id : ℕ) (data data' : Data)
    (outFace : ℕ) :
    Alike V B (node.sendData g id data outFace) (node'.sendData g id data' outFace) := by
  cases hgeo : node.isGeoFace outFace with
  | true =>
    rw [Node.sendData, Node.sendData, h.isGeoFace, hgeo]
    exact h
  | false =>
    obtain ⟨new, -, heq⟩ := sendData_eq g node hgeo id data
    obtain ⟨new', -, heq'⟩ := sendData_eq g node' (h.isGeoFace ▸ hgeo) id data'
    rw [heq, heq']
    exact (h.modifyPit id _).withSent _ _

variable {inFace : ℕ}

section

variable (h : Alike Similar B node node') (hdata : data'.unmark = data.unmark)
  (hordinary : node.isGeoFace inFace = true → data.IsOrdinary ∧ data'.IsOrdinary) (g : Geometry)
  (entry : Entry)
include h hdata hordinary

theorem afterContentStoreHit :
    Alike Similar B (node.afterContentStoreHit g entry inFace data)
      (node'.afterContentStoreHit g entry inFace data') := by
  rw [Node.afterContentStoreHit, Node.afterContentStoreHit, h.isGeoFace, h.lookupFib]
  split
  · rename_i hgeo
    obtain ⟨hplain, hplain'⟩ := hordinary hgeo
    split
    · exact h
    · refine h.sendDataToVal hdata (h.val.reveiceData g hdata ?_ _ _) entry.id
      rw [controlBranch_of_isOrdinary hplain, controlBranch_of_isOrdinary hplain']
  · exact h.sendData g entry.id data data' inFace

theorem onContentStoreHit :
    Alike Similar B (node.onContentStoreHit g entry inFace data)
      (node'.onContentStoreHit g entry inFace data') := by
  rw [Node.onContentStoreHit, Node.onContentStoreHit, freshnessPeriod_of_unmark hdata]
  exact ((h.modifyPit entry.id _).setExpiryTimer entry.id 0).afterContentStoreHit hdata
    hordinary g entry

end

theorem enterInterest {P : Platform τ} (hP : P.MarkBlind B) (h : Alike Similar B node node')
    (g : Geometry) {interest : Interest} (hordinary : node.isGeoFace inFace = true → ∀ data,
      (P.contentStoreLookup node.store interest).2 = some data ∨
        (P.contentStoreLookup node'.store interest).2 = some data → data.IsOrdinary) :
    Alike Similar B (node.enterInterest P g inFace interest)
      (node'.enterInterest P g inFace interest) := by
  rw [Node.enterInterest, Node.enterInterest, h.pit]
  cases node.pit.insert interest with
  | mk pit rest =>
    obtain ⟨entry, isNew⟩ := rest
    have hpit := h.withPit pit
    dsimp only
    rw [hpit.hasDuplicateNonce]
    split
    · exact hpit.onInterestLoop inFace interest
    · split
      · obtain ⟨hstore, hanswer⟩ := hP.lookup h.store interest
        cases hlookup : P.contentStoreLookup node.store interest with
        | mk store answer =>
          cases hlookup' : P.contentStoreLookup node'.store interest with
          | mk store' answer' =>
            rw [hlookup, hlookup'] at hordinary hstore hanswer
            cases answer with
            | none =>
              obtain rfl : answer' = none := by simpa using hanswer
              exact (hpit.withStore hstore).onContentStoreMiss g _ _ _ _
            | some data =>
              obtain ⟨data', rfl, hdata⟩ := Option.map_eq_some_iff.mp hanswer
              refine (hpit.withStore hstore).onContentStoreHit hdata ?_ g entry
              exact fun hgeo => ⟨hordinary hgeo data (.inl rfl), hordinary hgeo data' (.inr rfl)⟩
      · exact hpit.onContentStoreMiss g _ _ _ _

theorem onIncomingInterest {P : Platform τ} (hP : P.MarkBlind B) (h : Alike Similar B node node')
    (g : Geometry) {interest : Interest} (hordinary : node.isGeoFace inFace = true → ∀ data,
      (P.contentStoreLookup node.store (withoutHint P interest)).2 = some data ∨
        (P.contentStoreLookup node'.store (withoutHint P interest)).2 = some data →
          data.IsOrdinary) :
    Alike Similar B (node.onIncomingInterest P g inFace interest)
      (node'.onIncomingInterest P g inFace interest) := by
  rw [Node.onIncomingInterest, Node.onIncomingInterest, h.isNonLocal, hP.deadNonceListHas h.store]
  split
  · exact h
  · split
    · exact h.onInterestLoop inFace interest
    · exact h.enterInterest hP g hordinary

end Alike

/-! ### Data -/

def SameFaces (v v' : ValForwarder) : Prop := v'.faces = v.faces

theorem SameFaces.reveiceData (h : SameFaces v v') (g : Geometry) (inGeoface : ℕ)
    (data data' : Data) (nonceList : Option (List Nonce)) (isProducer : Bool) :
    SameFaces (v.reveiceData g inGeoface data nonceList isProducer)
      (v'.reveiceData g inGeoface data' nonceList isProducer) := by
  rw [SameFaces, faces_reveiceData, faces_reveiceData]
  exact h

namespace Alike

variable {B : τ → τ → Prop} {node node' : Node τ} {data data' : Data}

theorem faceSendDataToVal (h : Alike SameFaces B node node') (g : Geometry) (faceId : ℕ)
    (data data' : Data) (nonceList : Option (List Nonce)) (isProducer : Bool) :
    Alike SameFaces B (node.faceSendDataToVal g faceId data nonceList isProducer)
      (node'.faceSendDataToVal g faceId data' nonceList isProducer) := by
  rw [Node.faceSendDataToVal, Node.faceSendDataToVal, h.isGeoFace]
  split
  · have hval := h.val.reveiceData g faceId data data' nonceList isProducer
    exact h.withVal hval hval
  · exact h

/-- One turn of the loop. The flag and the Data are the same, but for the mark. -/
theorem sendDownstream {s s' : Downstream τ} (h : Alike SameFaces B s.node s'.node)
    (hdata : s'.data.unmark = s.data.unmark) (hflag : s'.sentToGeoFace = s.sentToGeoFace)
    (g : Geometry) (id inFace : ℕ) (isProducer : Bool) (downstream : ℕ) :
    Alike SameFaces B (Node.sendDownstream g id inFace isProducer s downstream).node
        (Node.sendDownstream g id inFace isProducer s' downstream).node ∧
      (Node.sendDownstream g id inFace isProducer s' downstream).data.unmark =
        (Node.sendDownstream g id inFace isProducer s downstream).data.unmark ∧
      (Node.sendDownstream g id inFace isProducer s' downstream).sentToGeoFace =
        (Node.sendDownstream g id inFace isProducer s downstream).sentToGeoFace := by
  rw [Node.sendDownstream, Node.sendDownstream, h.pit, h.isGeoFace, h.isAppFace, hflag]
  split
  · exact ⟨h, hdata, hflag⟩
  · split
    · refine ⟨h.sendDataToVal hdata ?_ id, hdata, rfl⟩
      exact h.val.reveiceData ..
    · split
      · have hsent := h.sendData g id s.data s'.data downstream
        dsimp only
        split
        · exact ⟨hsent.faceSendDataToVal g inFace _ _ _ false, hdata, rfl⟩
        · exact ⟨hsent, hdata, rfl⟩
      · exact ⟨h.modifyPit id _, hdata, rfl⟩

theorem foldl_sendDownstream {s t : Downstream τ} (h : Alike SameFaces B s.node t.node)
    (hdata : t.data.unmark = s.data.unmark) (hflag : t.sentToGeoFace = s.sentToGeoFace)
    (g : Geometry) (id inFace : ℕ) (isProducer : Bool) (downstreams : List ℕ) :
    Alike SameFaces B
        (downstreams.foldl (Node.sendDownstream g id inFace isProducer) s).node
        (downstreams.foldl (Node.sendDownstream g id inFace isProducer) t).node ∧
      (downstreams.foldl (Node.sendDownstream g id inFace isProducer) t).data.unmark =
        (downstreams.foldl (Node.sendDownstream g id inFace isProducer) s).data.unmark := by
  induction downstreams generalizing s t with
  | nil => exact ⟨h, hdata⟩
  | cons downstream downstreams ih =>
    obtain ⟨hnext, hdata, hflag⟩ :=
      h.sendDownstream hdata hflag g id inFace isProducer downstream
    exact ih hnext hdata hflag

theorem afterReceiveData (h : Alike SameFaces B node node') (hdata : data'.unmark = data.unmark)
    (g : Geometry) (order : List ℕ → List ℕ) (id inFace : ℕ) :
    Alike SameFaces B (node.afterReceiveData g order id inFace data).1
        (node'.afterReceiveData g order id inFace data').1 ∧
      (node'.afterReceiveData g order id inFace data').2.unmark =
        (node.afterReceiveData g order id inFace data).2.unmark := by
  rw [Node.afterReceiveData, Node.afterReceiveData, h.pit, h.isGeoFace]
  split
  · exact ⟨h, hdata⟩
  · dsimp only
    have hroute : Alike SameFaces B
        (if node.isGeoFace inFace then node.addRoute data.name.getPrefix1 inFace 1 else node)
        (if node.isGeoFace inFace then node'.addRoute data'.name.getPrefix1 inFace 1
          else node') := by
      rw [name_of_unmark hdata]
      split
      · exact h.addRoute _ _ _
      · exact h
    rw [hroute.now]
    exact hroute.foldl_sendDownstream
      (s := ⟨_, data, false⟩) (t := ⟨_, data', false⟩) hdata rfl g id inFace _ _

variable {P : Platform τ}

theorem satisfy (hP : P.MarkBlind B) (h : Alike SameFaces B node node')
    (hdata : data'.unmark = data.unmark) (g : Geometry) (inFace id : ℕ) :
    Alike SameFaces B (Node.satisfy P g inFace (node, data) id).1
        (Node.satisfy P g inFace (node', data') id).1 ∧
      (Node.satisfy P g inFace (node', data') id).2.unmark =
        (Node.satisfy P g inFace (node, data) id).2.unmark := by
  obtain ⟨hafter, hmark⟩ :=
    (h.setExpiryTimer id 0).afterReceiveData hdata g P.setOrder id inFace
  rw [Node.satisfy, Node.satisfy]
  dsimp only
  generalize (node.setExpiryTimer id 0).afterReceiveData g P.setOrder id inFace data = s
    at hafter hmark ⊢
  generalize (node'.setExpiryTimer id 0).afterReceiveData g P.setOrder id inFace data' = t
    at hafter hmark ⊢
  refine ⟨?_, hmark⟩
  rw [freshnessPeriod_of_unmark hmark]
  have hsatisfied := hafter.modifyPit id fun entry =>
    { entry with isSatisfied := true, dataFreshnessPeriod := s.2.freshnessPeriod }
  rw [hsatisfied.pit]
  refine modifyPit ?_ id _
  split
  · exact hsatisfied
  · exact hsatisfied.insertDeadNonceList hP _ (some inFace)

theorem foldl_satisfy (hP : P.MarkBlind B) (h : Alike SameFaces B node node')
    (hdata : data'.unmark = data.unmark) (g : Geometry) (inFace : ℕ) (ids : List ℕ) :
    Alike SameFaces B (ids.foldl (Node.satisfy P g inFace) (node, data)).1
      (ids.foldl (Node.satisfy P g inFace) (node', data')).1 := by
  induction ids generalizing node node' data data' with
  | nil => exact h
  | cons id ids ih =>
    obtain ⟨hnext, hmark⟩ := h.satisfy hP hdata g inFace id
    exact ih hnext hmark

theorem findAllDataMatches {V : ValForwarder → ValForwarder → Prop} (hP : P.MarkBlind B)
    (h : Alike V B node node') (hdata : data'.unmark = data.unmark) :
    node'.findAllDataMatches P data' = node.findAllDataMatches P data := by
  rw [Node.findAllDataMatches, Node.findAllDataMatches, h.pit]
  simp only [hP.matchesData hdata]

theorem onDataUnsolicited (hP : P.MarkBlind B) (h : Alike SameFaces B node node')
    (hdata : data'.unmark = data.unmark) (g : Geometry) (inFace : ℕ) :
    Alike SameFaces B (node.onDataUnsolicited P g inFace data)
      (node'.onDataUnsolicited P g inFace data') := by
  rw [Node.onDataUnsolicited, Node.onDataUnsolicited, h.isNonLocal, h.isGeoFace, h.isAppFace,
    h.fib, name_of_unmark hdata]
  split
  · exact h
  · split
    · dsimp only
      split
      · exact h.faceSendDataToVal g inFace _ _ none _
      · have hsent := (h.addRoute data.name.getPrefix1 inFace 1).faceSendDataToVal g inFace
          (data.setCongestionMark 501) (data'.setCongestionMark 501) none
          (node.isProducerOf data.name)
        exact hsent.withStore (hP.add hsent.store hdata)
    · exact { h.withStore (hP.add h.store hdata) with fib := rfl }

/-- NFD's part of a Data. -/
theorem onIncomingData (hP : P.MarkBlind B) (h : Alike SameFaces B node node')
    (hdata : data'.unmark = data.unmark) (g : Geometry) (inFace : ℕ) :
    Alike SameFaces B (node.onIncomingData P g inFace data)
      (node'.onIncomingData P g inFace data') := by
  rw [Node.onIncomingData, Node.onIncomingData, h.isNonLocal, name_of_unmark hdata,
    h.findAllDataMatches hP hdata]
  split
  · exact h
  · split
    · exact h.onDataUnsolicited hP hdata g inFace
    · exact (h.withStore (hP.add h.store hdata)).foldl_satisfy hP hdata g inFace _

end Alike

end Node

/-! ### The same deliveries -/

/-- Two deliveries that differ only in the mark of the Data. The notifications have
the same mark, since they set it themselves. -/
structure Delivery.SameButMark (d d' : Delivery) : Prop where
  site : d'.site = d.site
  faceId : d'.faceId = d.faceId
  data : d'.data.unmark = d.data.unmark
  nonceList : d'.nonceList = d.nonceList
  isProducer : d'.isProducer = d.isProducer
  notification : d.site = .unsolicited ∨ d.site = .cleaning →
    d'.data.getCongestionMark = d.data.getCongestionMark

open Delivery

theorem Notice.deliveries_sameButMark {data data' : Data} (h : data'.unmark = data.unmark)
    (notices : List Notice) :
    Forall₂ SameButMark (deliveries data notices) (deliveries data' notices) := by
  induction notices generalizing data data' with
  | nil => exact .nil
  | cons notice notices ih =>
    have hmark : (notice.mark data').unmark = (notice.mark data).unmark := by
      rw [mark, mark]
      split
      · exact h
      · exact h
    refine .cons ⟨rfl, rfl, hmark, rfl, rfl, fun hsite => ?_⟩ (ih hmark)
    cases hclean : notice.isClean with
    | true => rw [getCongestionMark_mark hclean, getCongestionMark_mark hclean]
    | false => simp [hclean] at hsite

namespace Node

variable {τ : Type} {g : Geometry} {v v' : ValForwarder}

/-- Similar VALs stay similar when control is local at both. -/
theorem Similar.foldl_deliver {ds ds' : List Delivery} (hds : Forall₂ SameButMark ds ds')
    (h : Similar v v') (hlocal : ControlLocal g v ds) (hlocal' : ControlLocal g v' ds') :
    Similar (ds.foldl (deliver g) v) (ds'.foldl (deliver g) v') := by
  induction hds generalizing v v' with
  | nil => exact h
  | @cons d d' ds ds' hd _ ih =>
    obtain ⟨hbranch, hlocal⟩ := hlocal
    obtain ⟨hbranch', hlocal'⟩ := hlocal'
    refine ih ?_ hlocal hlocal'
    rw [deliver, deliver, hd.faceId, hd.nonceList, hd.isProducer]
    refine h.reveiceData g hd.data ?_ _ _
    rw [hd.site] at hbranch'
    rw [Delivery.control] at hbranch hbranch'
    rw [hd.isProducer] at hbranch'
    by_cases hsite : d.site = .unsolicited ∨ d.site = .cleaning
    · have hdfnt : v'.dfnt = v.dfnt := by
        have hunmark : v'.unmark.dfnt = v.unmark.dfnt := by
          rw [show v'.unmark = v.unmark from h]
        exact hunmark
      have hsig : d'.data.signature = d.data.signature := by
        have hunmark : d'.data.unmark.signature = d.data.unmark.signature := by rw [hd.data]
        exact hunmark
      rw [controlBranch, controlBranch, hd.notification hsite, hdfnt, hsig]
    · rw [not_imp_comm.mp hbranch' hsite, not_imp_comm.mp hbranch hsite]

variable {B : τ → τ → Prop} {P : Platform τ} {node node' : Node τ}

theorem Alike.dataDeliveries {V : ValForwarder → ValForwarder → Prop} (hP : P.MarkBlind B)
    (h : Alike V B node node') {data data' : Data} (hdata : data'.unmark = data.unmark)
    (inFace : ℕ) :
    Forall₂ SameButMark (node.dataDeliveries P inFace data)
      (node'.dataDeliveries P inFace data') := by
  have hnotices : node'.notices P inFace data' = node.notices P inFace data := by
    rw [notices, notices, h.findAllDataMatches hP hdata]
    exact flatMap_congr fun id _ =>
      noticesAt_congr (by rw [h.pit]) h.now h.faces (name_of_unmark hdata)
  rw [Node.dataDeliveries, Node.dataDeliveries, h.isNonLocal, h.isGeoFace, name_of_unmark hdata,
    h.findAllDataMatches hP hdata, h.isProducerOf, hnotices]
  split
  · exact .nil
  · split
    · split
      · exact .cons ⟨rfl, rfl, hdata, rfl, rfl, fun _ => rfl⟩ .nil
      · exact .nil
    · exact Notice.deliveries_sameButMark hdata _

/-! ### Two runs -/

/-- Events that are the same but for the mark of a Data. -/
inductive Event.SameButMark : Event → Event → Prop
  | receive (face : ℕ) {valP valP' : ValPacket} (h : valP'.unmark = valP.unmark) :
      SameButMark (.receive face valP) (.receive face valP')
  | incomingData (face : ℕ) {data data' : Data} (h : data'.unmark = data.unmark) :
      SameButMark (.incomingData face data) (.incomingData face data')
  | refl (e : Event) : SameButMark e e

/-- VAL's part of a Data, at two nodes where control stays local. -/
theorem Alike.incomingData (hP : P.MarkBlind B) (h : Alike Similar B node node') {data data' : Data}
    (hdata : data'.unmark = data.unmark) {inFace : ℕ}
    (hlocal : ControlLocal g node.val (node.dataDeliveries P inFace data))
    (hlocal' : ControlLocal g node'.val (node'.dataDeliveries P inFace data')) :
    Alike Similar B (node.onIncomingData P g inFace data)
      (node'.onIncomingData P g inFace data') := by
  have hnfd := Alike.onIncomingData hP { h with val := h.faces } hdata g inFace
  refine { hnfd with val := ?_ }
  rw [val_onIncomingData_eq, val_onIncomingData_eq]
  exact h.val.foldl_deliver (h.dataDeliveries hP hdata inFace) hlocal hlocal'

theorem Similar.onReceivedValPacket (h : Similar v v') {valP valP' : ValPacket}
    (hvalP : valP'.unmark = valP.unmark) (face : ℕ) :
    Similar (v.onReceivedValPacket face valP).1 (v'.onReceivedValPacket face valP').1 ∧
      (v'.onReceivedValPacket face valP').2.map ToNfd.unmark =
        (v.onReceivedValPacket face valP).2.map ToNfd.unmark := by
  have heq := v.unmark_onReceivedValPacket face valP
  have heq' := v'.unmark_onReceivedValPacket face valP'
  rw [show v'.unmark = v.unmark from h, hvalP, heq] at heq'
  exact ⟨(congrArg Prod.fst heq').symm, (congrArg Prod.snd heq').symm⟩

theorem Alike.receive (hP : P.MarkBlind B) (h : Alike Similar B node node')
    (hknown : node.FacesKnown) (hknown' : node'.FacesKnown) {face : ℕ} {valP valP' : ValPacket}
    (hvalP : valP'.unmark = valP.unmark) (hguard : node.guard (.receive face valP))
    (hguard' : node'.guard (.receive face valP')) (hmarks : node.Unmarked P (.receive face valP))
    (hmarks' : node'.Unmarked P (.receive face valP')) :
    Alike Similar B (node.onReceivedValPacket P g face valP)
      (node'.onReceivedValPacket P g face valP') := by
  obtain ⟨hval, hpacket⟩ := h.val.onReceivedValPacket hvalP face
  have hlocal := hmarks.controlLocal hknown hguard g
  have hlocal' := hmarks'.controlLocal hknown' hguard' g
  rw [deliveries] at hlocal hlocal'
  rw [Unmarked] at hmarks hmarks'
  rw [Node.onReceivedValPacket, Node.onReceivedValPacket]
  cases hrec : node.val.onReceivedValPacket face valP with
  | mk v packet =>
    cases hrec' : node'.val.onReceivedValPacket face valP' with
    | mk v' packet' =>
      rw [hrec, hrec'] at hval hpacket
      rw [hrec] at hlocal
      rw [hrec'] at hlocal'
      have hreceived : Alike Similar B { node with val := v } { node' with val := v' } :=
        h.withVal hval hval.faces
      cases packet with
      | none =>
        obtain rfl : packet' = none := by simpa using hpacket
        exact hreceived
      | some packet =>
        obtain ⟨packet', rfl, hsame⟩ := Option.map_eq_some_iff.mp hpacket
        cases packet with
        | interest geoface interest =>
          cases packet' with
          | data geoface' data' => cases hsame
          | interest geoface' interest' =>
            cases hsame
            obtain ⟨-, ⟨i, nextHop, hpay, hi⟩, -⟩ := toNfd_interest hrec
            obtain ⟨-, ⟨i', nextHop', hpay', hi'⟩, -⟩ :=
              toNfd_interest hrec'
            rw [hpay] at hmarks
            rw [hpay'] at hmarks'
            refine hreceived.onIncomingInterest hP g fun _ data hdata => ?_
            rcases hdata with hdata | hdata
            · exact hmarks nextHop data (hi ▸ hdata)
            · exact hmarks' nextHop' data (hi' ▸ hdata)
        | data geoface data =>
          cases packet' with
          | interest geoface' interest' => cases hsame
          | data geoface' data' =>
            obtain ⟨rfl, hdata⟩ := ToNfd.data.inj hsame
            exact hreceived.incomingData hP hdata hlocal hlocal'

theorem Similar.fire (h : Similar v v') (id : ℕ) : Similar (v.fire id) (v'.fire id) := by
  have hfire : ∀ v : ValForwarder, v.unmark.fire id = (v.fire id).unmark := by
    intro v
    rw [ValForwarder.fire, show v.unmark.pending = v.pending.unmark from rfl,
      show v.unmark.faces = v.faces from rfl, Pft.Pending.unmark_fire]
    rfl
  rw [Similar, ← hfire, ← hfire, show v'.unmark = v.unmark from h]

theorem Similar.addFace (h : Similar v v') (face : Face) :
    Similar (v.addFace face) (v'.addFace face) :=
  congrArg (ValForwarder.addFace · face) h

theorem Similar.move (h : Similar v v') (mobility : Mobility) :
    Similar { v with mobility := mobility } { v' with mobility := mobility } := by
  have hmove := congrArg (fun v : ValForwarder => { v with mobility := mobility }) h
  exact hmove

/-- **The step lemma.** -/
theorem Alike.next (hP : P.MarkBlind B) (h : Alike Similar B node node') (hknown : node.FacesKnown)
    (hknown' : node'.FacesKnown) {e e' : Event} (he : Event.SameButMark e e')
    (hguard : node.guard e) (hguard' : node'.guard e') (hmarks : node.Unmarked P e)
    (hmarks' : node'.Unmarked P e') : Alike Similar B (node.next P g e) (node'.next P g e') := by
  have hdata : ∀ {face : ℕ} {data data' : Data}, data'.unmark = data.unmark →
      node.guard (.incomingData face data) → node'.guard (.incomingData face data') →
      node.Unmarked P (.incomingData face data) → node'.Unmarked P (.incomingData face data') →
      Alike Similar B (node.next P g (.incomingData face data))
        (node'.next P g (.incomingData face data')) := fun hsame hg hg' hm hm' =>
    h.incomingData hP hsame (hm.controlLocal hknown hg g) (hm'.controlLocal hknown' hg' g)
  cases he with
  | receive face hvalP => exact h.receive hP hknown hknown' hvalP hguard hguard' hmarks hmarks'
  | incomingData face hsame => exact hdata hsame hguard hguard' hmarks hmarks'
  | refl =>
    cases e with
    | receive face valP =>
      exact h.receive hP hknown hknown' rfl hguard hguard' hmarks hmarks'
    | incomingData face data => exact hdata rfl hguard hguard' hmarks hmarks'
    | incomingInterest face interest =>
      exact h.onIncomingInterest hP g fun hface =>
        absurd hface (Bool.eq_false_iff.mp (OwnFace.isGeoFace hguard))
    | incomingNack face interest => exact h.onIncomingNack face interest
    | fire id => exact h.withVal (h.val.fire id) (h.val.fire id).faces
    | interestFinalize id => exact h.onInterestFinalize hP id
    | elapse duration => exact { h with now := congrArg (· + duration) h.now }
    | addFace face => exact h.withVal (h.val.addFace face) (h.val.addFace face).faces
    | addRoute name faceId cost => exact h.addRoute name faceId cost
    | move mobility => exact h.withVal (h.val.move mobility) h.faces

/-- What has been handed to `registerOutgoingValPacket`, up to marks, each with the
entry object it got. -/
def registrations (node : Node τ) : List (Outgoing × Option ℕ) :=
  node.val.calls.filterMap fun call => call.sent.map fun out => (out.unmark, call.created)

theorem Alike.registrations (h : Alike Similar B node node') :
    node'.registrations = node.registrations := by
  have hcalls : ∀ v : ValForwarder,
      v.calls.filterMap (fun call => call.sent.map fun out => (out.unmark, call.created)) =
        v.unmark.calls.filterMap fun call => call.sent.map fun out => (out, call.created) := by
    intro v
    rw [unmark, filterMap_map]
    refine congrArg (filterMap · v.calls) (funext fun call => ?_)
    rw [Function.comp_apply, Call.unmark, Option.map_map]
    rfl
  rw [Node.registrations, Node.registrations, hcalls, hcalls,
    show node'.val.unmark = node.val.unmark from h.val]

/-- Two runs with the same events but for the marks. -/
theorem Alike.foldl (hP : P.MarkBlind B) {es es' : List Event}
    (hsame : Forall₂ Event.SameButMark es es') (h : Alike Similar B node node')
    (hknown : node.FacesKnown) (hknown' : node'.FacesKnown)
    (hes : ((system P g).restrict (Unmarked P)).Enabled node es)
    (hes' : ((system P g).restrict (Unmarked P)).Enabled node' es') :
    Alike Similar B (es.foldl (Node.next P g) node) (es'.foldl (Node.next P g) node') := by
  induction hsame generalizing node node' with
  | nil => exact h
  | cons he _ ih =>
    cases hes with
    | cons hguard hes =>
      cases hes' with
      | cons hguard' hes' =>
        refine ih ?_ (hknown.next hguard.1) (hknown'.next hguard'.1) hes hes'
        exact h.next hP hknown hknown' he hguard.1 hguard'.1 hguard.2 hguard'.2

/-- Control stays local while every event meets `Unmarked`: a control branch is taken
only in the two notifications, and two runs that differ only in the marks of Data
register the same packets. -/
theorem control_marks_local (P : Platform τ) (g : Geometry) :
    (∀ (node : Node τ) (e : Event), (system P g).Reachable node → node.guard e →
        node.Unmarked P e → ControlLocal g (node.deliveries P e).1 (node.deliveries P e).2) ∧
      ∀ B : τ → τ → Prop, P.MarkBlind B → ∀ (node : Node τ) (es es' : List Event),
        (system P g).Reachable node → ((system P g).restrict (Unmarked P)).Enabled node es →
        ((system P g).restrict (Unmarked P)).Enabled node es' →
        List.Forall₂ Event.SameButMark es es' →
        (es'.foldl (next P g) node).registrations = (es.foldl (next P g) node).registrations := by
  refine ⟨fun node e hreach hguard hmarks => ?_, ?_⟩
  · exact hmarks.controlLocal (facesKnown_of_reachable hreach) hguard g
  · intro B hP node es es' hreach hes hes' hsame
    have hknown := facesKnown_of_reachable hreach
    have hself : Alike Similar B node node := ⟨rfl, rfl, rfl, rfl, hP.refl _, rfl⟩
    exact (hself.foldl hP hsame hknown hknown hes hes').registrations

/-! ### Marks from the network -/

theorem cachingPlatform_markBlind :
    cachingPlatform.MarkBlind fun store store' =>
      store'.map Data.unmark = store.map Data.unmark where
  refl _ := rfl
  matchesData h interest := by
    show (interest.name == _) = (interest.name == _)
    rw [name_of_unmark h]
  lookup {store store'} h interest := by
    refine ⟨h, ?_⟩
    have hfind : ∀ store : List Data,
        (store.find? fun data => data.name == interest.name).map Data.unmark =
          (store.map Data.unmark).find? fun data => data.name == interest.name := by
      intro store
      rw [find?_map]
      rfl
    show (store'.find? _).map Data.unmark = (store.find? _).map Data.unmark
    rw [hfind, hfind, h]
  add {store store'} h data data' hdata := by
    show (data' :: store').map Data.unmark = (data :: store).map Data.unmark
    rw [map_cons, map_cons, h, hdata]
  deadNonceListHas _ _ _ := rfl
  deadNonceListAdd h _ _ := h

/-- A geometry in which the sender of `heardData` is far away. -/
def farSender : Geometry :=
  { ValForwarder.flatGeometry with
    getMultiPointDist := fun pos _ => if pos = "9:0:0" then 200 else 100 }

/-- Area A2 has asked the node for `/a/1`. -/
def askedRelay : Node (List Data) :=
  freshCache.next cachingPlatform farSender (.receive 257 (askedFor 7))

theorem askedRelay_reachable : (system cachingPlatform farSender).Reachable askedRelay := by
  have hguard : (system cachingPlatform farSender).guard freshCache
      (.receive 257 (askedFor 7)) := mem_singleton.mpr rfl
  exact (freshCache_reachable _).next hguard

/-- The answer, with a mark. -/
def heardMarked (mark : ℕ) : ValPacket :=
  { heardData with payload := .data (ValForwarder.sampleData.setCongestionMark mark) }

theorem control_marks_local_askedRelay :
    ControlLocal farSender (askedRelay.deliveries cachingPlatform (.receive 257 heardData)).1
        (askedRelay.deliveries cachingPlatform (.receive 257 heardData)).2 ∧
      ([.receive 257 (heardMarked 1)].foldl (next cachingPlatform farSender)
        askedRelay).registrations =
        ([.receive 257 heardData].foldl (next cachingPlatform farSender)
          askedRelay).registrations := by
  have hmem : 257 ∈ askedRelay.val.networkFaces := List.mem_singleton.mpr rfl
  have hmarks : askedRelay.Unmarked cachingPlatform (.receive 257 heardData) :=
    .inr ⟨⟨by decide, by decide⟩, .inl rfl⟩
  have hmarks' : askedRelay.Unmarked cachingPlatform (.receive 257 (heardMarked 1)) :=
    .inr ⟨⟨by decide, by decide⟩, .inl rfl⟩
  obtain ⟨hlocal, hruns⟩ := control_marks_local cachingPlatform farSender
  refine ⟨hlocal _ _ askedRelay_reachable hmem hmarks, ?_⟩
  refine hruns _ cachingPlatform_markBlind askedRelay _ _ askedRelay_reachable
    (.cons ⟨hmem, hmarks⟩ (.nil _)) (.cons ⟨hmem, hmarks'⟩ (.nil _)) ?_
  exact .cons (.receive 257 rfl) .nil

/-- The answer marked 501 on the wire is not sent on to A2, as it is without the
mark. And the Data that a node has overheard and cached is not sent when it is
asked for, since it is cached with the mark 501. -/
theorem control_marks_travel :
    ((system cachingPlatform farSender).Reachable askedRelay ∧
      ¬ ControlLocal farSender
        (askedRelay.deliveries cachingPlatform (.receive 257 (heardMarked 501))).1
        (askedRelay.deliveries cachingPlatform (.receive 257 (heardMarked 501))).2 ∧
      (askedRelay.next cachingPlatform farSender
        (.receive 257 heardData)).registrations.length = 2 ∧
      (askedRelay.next cachingPlatform farSender
        (.receive 257 (heardMarked 501))).registrations.length = 1) ∧
    (system cachingPlatform ValForwarder.flatGeometry).Reachable caching ∧
      ¬ ControlLocal ValForwarder.flatGeometry
        (caching.deliveries cachingPlatform (.receive 257 (askedFor 7))).1
        (caching.deliveries cachingPlatform (.receive 257 (askedFor 7))).2 ∧
      (caching.next cachingPlatform ValForwarder.flatGeometry
        (.receive 257 (askedFor 7))).registrations = [] := by
  refine ⟨⟨askedRelay_reachable, fun hlocal => ?_, rfl, rfl⟩, caching_reachable,
    fun hlocal => ?_, rfl⟩
  · exact absurd (hlocal.1 (by decide)) (by decide)
  · exact absurd (hlocal.1 (by decide)) (by decide)

end Node

end ValProofs
