import ValProofs.Nfd.Machine

/-!
The routes of a node, and what becomes of an Interest that the content store
answers.

Routes come from the constructor of VAL, which makes the flood face the default
route, from applications that register a prefix, and from packets. None is ever
taken out, so every name leads somewhere. `afterContentStoreHit` replies through
the first geoface among the next hops of the longest prefix, and at a producer
that may be a prefix with no next hop but the application.
-/

namespace ValProofs

open Lib Fib List FaceTable ValForwarder

namespace Node

variable {τ : Type}

/-! ### Who adds routes -/

@[simp] theorem fib_modifyPit (node : Node τ) (id : ℕ) (f : Pit.Entry → Pit.Entry) :
    (node.modifyPit id f).fib = node.fib := rfl

@[simp] theorem fib_setExpiryTimer (node : Node τ) (id duration : ℕ) :
    (node.setExpiryTimer id duration).fib = node.fib := rfl

@[simp] theorem fib_insertDeadNonceList (P : Platform τ) (node : Node τ) (entry : Pit.Entry)
    (upstream : Option ℕ) : (node.insertDeadNonceList P entry upstream).fib = node.fib := by
  obtain ⟨records, hstore⟩ := insertDeadNonceList_eq P entry upstream
  rw [hstore]

variable (g : Geometry)

section

variable (node : Node τ)

@[simp] theorem fib_onOutgoingInterest (id outFace : ℕ) (interest : Interest) :
    (node.onOutgoingInterest g id outFace interest).fib = node.fib := by
  rw [onOutgoingInterest]
  split <;> rfl

@[simp] theorem fib_onOutgoingData (data : Data) (outFace : ℕ) (nonceList : Option (List Nonce))
    (isProducer : Bool) :
    (node.onOutgoingData g data outFace nonceList isProducer).fib = node.fib := by
  rw [onOutgoingData]
  split
  · rfl
  · split <;> rfl

@[simp] theorem fib_faceSendDataToVal (faceId : ℕ) (data : Data) (nonceList : Option (List Nonce))
    (isProducer : Bool) :
    (node.faceSendDataToVal g faceId data nonceList isProducer).fib = node.fib := by
  rw [faceSendDataToVal]
  split <;> rfl

@[simp] theorem fib_sendData (id : ℕ) (data : Data) (outFace : ℕ) :
    (node.sendData g id data outFace).fib = node.fib := by
  rw [sendData]
  split
  · rfl
  · rw [fib_onOutgoingData, fib_modifyPit]

@[simp] theorem fib_sendDataToVal (id : ℕ) (data : Data) (outFace : ℕ)
    (nonceList : Option (List Nonce)) (isProducer : Bool) :
    (node.sendDataToVal g id data outFace nonceList isProducer).fib = node.fib := by
  rw [sendDataToVal, fib_onOutgoingData, fib_modifyPit]

@[simp] theorem fib_afterReceiveInterest (id inFace : ℕ) (pitInterest interest : Interest) :
    (node.afterReceiveInterest g id inFace pitInterest interest).fib = node.fib := by
  rw [afterReceiveInterest]
  split
  · rfl
  · rw [fib_onOutgoingInterest]

@[simp] theorem fib_afterContentStoreHit (entry : Pit.Entry) (inFace : ℕ)
    (data : Data) : (node.afterContentStoreHit g entry inFace data).fib = node.fib := by
  rw [afterContentStoreHit]
  split
  · split
    · rfl
    · rw [fib_sendDataToVal]
  · rw [fib_sendData]

@[simp] theorem fib_onContentStoreHit (entry : Pit.Entry) (inFace : ℕ)
    (data : Data) : (node.onContentStoreHit g entry inFace data).fib = node.fib := by
  rw [onContentStoreHit, fib_afterContentStoreHit, fib_setExpiryTimer, fib_modifyPit]

@[simp] theorem fib_onInterestLoop (inFace : ℕ) (interest : Interest) :
    (node.onInterestLoop inFace interest).fib = node.fib := by
  obtain ⟨sent, hloop⟩ := onInterestLoop_eq node inFace interest
  rw [hloop]

end

@[simp] theorem fib_sendDownstream (id inFace : ℕ) (isProducer : Bool) (s : Downstream τ)
    (downstream : ℕ) :
    (sendDownstream g id inFace isProducer s downstream).node.fib = s.node.fib := by
  rw [sendDownstream]
  split
  · rfl
  · split
    · rw [fib_sendDataToVal]
    · split
      · dsimp only
        split
        · rw [fib_faceSendDataToVal, fib_sendData]
        · rw [fib_sendData]
      · rfl

theorem fib_foldl_sendDownstream (id inFace : ℕ) (isProducer : Bool) (downstreams : List ℕ)
    (s : Downstream τ) :
    (downstreams.foldl (sendDownstream g id inFace isProducer) s).node.fib = s.node.fib := by
  induction downstreams generalizing s with
  | nil => rfl
  | cons downstream downstreams ih => rw [foldl_cons, ih, fib_sendDownstream]

/-- A Data from a geoface adds the route it has come on. -/
theorem learned_afterReceiveData (order : List ℕ → List ℕ) (node : Node τ) (id inFace : ℕ)
    (data : Data) : Learned node.fib (node.afterReceiveData g order id inFace data).1.fib := by
  rw [afterReceiveData]
  split
  · exact .refl _
  · dsimp only
    rw [fib_foldl_sendDownstream]
    split
    · exact learned_addRoute ..
    · exact .refl _

theorem learned_satisfy (P : Platform τ) (g : Geometry) (inFace : ℕ) (s : Node τ × Data)
    (id : ℕ) : Learned s.1.fib (satisfy P g inFace s id).1.fib := by
  have hafter := learned_afterReceiveData g P.setOrder (s.1.setExpiryTimer id 0) id inFace s.2
  rw [satisfy]
  dsimp only
  split
  · exact hafter
  · rw [fib_modifyPit, fib_insertDeadNonceList]
    exact hafter

theorem learned_foldl_satisfy (P : Platform τ) (g : Geometry) (inFace : ℕ) (ids : List ℕ)
    (s : Node τ × Data) : Learned s.1.fib (ids.foldl (satisfy P g inFace) s).1.fib := by
  induction ids generalizing s with
  | nil => exact .refl _
  | cons id ids ih => exact (learned_satisfy P g inFace s id).trans (ih _)

theorem learned_onDataUnsolicited (P : Platform τ) (g : Geometry) (node : Node τ) (inFace : ℕ)
    (data : Data) : Learned node.fib (node.onDataUnsolicited P g inFace data).fib := by
  rw [onDataUnsolicited]
  split
  · exact .refl _
  · split
    · dsimp only
      split
      · rw [fib_faceSendDataToVal]
        exact .refl _
      · rw [fib_faceSendDataToVal]
        exact learned_addRoute ..
    · exact .refl _

theorem learned_onIncomingData (P : Platform τ) (g : Geometry) (node : Node τ) (inFace : ℕ)
    (data : Data) : Learned node.fib (node.onIncomingData P g inFace data).fib := by
  rw [onIncomingData]
  split
  · exact .refl _
  · split
    · exact learned_onDataUnsolicited P g node inFace data
    · exact learned_foldl_satisfy P g inFace _
        ({ node with store := P.contentStoreAdd node.store data }, data)

theorem learned_chooseNextHop (node : Node τ) (id inFace : ℕ) (isNew : Bool) (nextHopFaceId : ℕ)
    (interest : Interest) :
    Learned node.fib (node.chooseNextHop id inFace isNew nextHopFaceId interest).1.fib := by
  rw [chooseNextHop]
  dsimp only
  split
  · split
    · split
      · split
        · exact .refl _
        · exact .refl _
      · exact .refl _
    · exact learned_addRoute ..
  · exact .refl _

variable {node : Node τ}

theorem learned_onContentStoreMiss {fib : List Entry} (hfib : node.fib = fib) (id inFace : ℕ)
    (isNew : Bool) (interest : Interest) :
    Learned fib (node.onContentStoreMiss g id inFace isNew interest).fib := by
  subst hfib
  rw [onContentStoreMiss]
  generalize hrecorded : (node.modifyPit id fun entry =>
    entry.insertOrUpdateInRecord node.now inFace interest) = recorded
  have hfib : recorded.fib = node.fib := by rw [← hrecorded, fib_modifyPit]
  rw [← hfib]
  dsimp only
  split
  · split
    · exact .refl _
    · rw [fib_onOutgoingInterest]
      generalize htimed : recorded.setExpiryTimer id _ = timed
      have hfib' : timed.fib = recorded.fib := by rw [← htimed, fib_setExpiryTimer]
      rw [← hfib']
      split
      · exact (learned_chooseNextHop ..).trans (learned_addRoute ..)
      · exact learned_chooseNextHop ..
  · rw [fib_afterReceiveInterest]
    exact .refl _

theorem learned_enterInterest (P : Platform τ) (g : Geometry) (node : Node τ) (inFace : ℕ)
    (interest : Interest) : Learned node.fib (node.enterInterest P g inFace interest).fib := by
  rw [enterInterest]
  split
  dsimp only
  split
  · rw [fib_onInterestLoop]
    exact .refl _
  · split
    · split
      · rw [fib_onContentStoreHit]
        exact .refl _
      · refine learned_onContentStoreMiss g ?_ _ _ _ _
        rfl
    · refine learned_onContentStoreMiss g ?_ _ _ _ _
      rfl

theorem learned_onIncomingInterest (P : Platform τ) (g : Geometry) (node : Node τ) (inFace : ℕ)
    (interest : Interest) : Learned node.fib (node.onIncomingInterest P g inFace interest).fib := by
  rw [onIncomingInterest]
  split
  · exact .refl _
  · split
    · rw [fib_onInterestLoop]
      exact .refl _
    · exact learned_enterInterest P g node inFace _

theorem learned_onReceivedValPacket (P : Platform τ) (g : Geometry) (node : Node τ) (face : ℕ)
    (valP : ValPacket) : Learned node.fib (node.onReceivedValPacket P g face valP).fib := by
  rw [onReceivedValPacket, handOver.eq_def]
  split
  · exact .refl _
  · exact learned_onIncomingInterest P g _ _ _
  · exact learned_onIncomingData P g _ _ _

theorem fib_onIncomingNack (node : Node τ) (inFace : ℕ) (interest : Interest) :
    (node.onIncomingNack inFace interest).fib = node.fib := by
  rw [onIncomingNack]
  split
  · rfl
  · split
    · rfl
    · split
      · rfl
      · split
        · rfl
        · dsimp only
          split <;> rfl

theorem fib_onInterestFinalize (P : Platform τ) (node : Node τ) (id : ℕ) :
    (node.onInterestFinalize P id).fib = node.fib := by
  rw [onInterestFinalize]
  split
  · rfl
  · exact fib_insertDeadNonceList P node _ none

/-- **The step lemma.** An event only adds routes. -/
theorem learned_next (P : Platform τ) (g : Geometry) (node : Node τ) (e : Event) :
    Learned node.fib (node.next P g e).fib := by
  cases e with
  | receive face valP => exact learned_onReceivedValPacket P g node face valP
  | incomingInterest face interest => exact learned_onIncomingInterest P g node face interest
  | incomingData face data => exact learned_onIncomingData P g node face data
  | incomingNack face interest =>
    rw [next, fib_onIncomingNack]
    exact .refl _
  | interestFinalize id =>
    rw [next, fib_onInterestFinalize]
    exact .refl _
  | addRoute name faceId cost => exact learned_addRoute ..
  | fire id | elapse duration | addFace face | move mobility => exact .refl _

/-! ### Every name leads somewhere -/

/-- The FIB is one that routes have been added to, and the default route goes to a
geoface. -/
structure Routed (node : Node τ) : Prop where
  proper : Fib.Proper node.fib
  flood : ∃ faceId, Fib.HasRoute node.fib [] faceId ∧ node.val.faces.IsGeo faceId

theorem Init.routed (h : node.Init) : node.Routed := by
  obtain ⟨faces, mobility, store, face, -, -, rfl⟩ := h
  have hempty : Proper [] := ⟨nodup_nil, fun _ h => by cases h⟩
  refine ⟨hempty.addRoute .., faces.lastFaceId + 1, ?_, ?_⟩
  · exact (hasRoute_addRoute ..).mpr (.inr ⟨rfl, rfl⟩)
  · exact ⟨makeGeoface, get_add_of_get (get_add_self _ _), rfl⟩

variable {P : Platform τ}

theorem routed_of_reachable {g : Geometry} (h : (system P g).Reachable node) : node.Routed := by
  refine h.induction (fun _ hinit => hinit.routed) ?_
  intro node e hreach ih hguard
  have hlearned := learned_next P g node e
  obtain ⟨faceId, hroute, hgeo⟩ := ih.flood
  exact ⟨hlearned.proper ih.proper, faceId, hlearned.hasRoute hroute,
    hgeo.extends (faces_extends_next hreach hguard)⟩

/-- The name that the FIB is asked for: a forwarding hint comes first. -/
def lookupName (interest : Interest) : Name := interest.forwardingHint.headD interest.name

/-- Because of the default route the first delegation of a hint always counts. -/
theorem Routed.lookupFib_reaches (h : node.Routed) (interest : Interest) (faceId : ℕ) :
    (node.lookupFib interest).Reaches faceId ↔
      Leads node.fib (lookupName interest) faceId := by
  rw [lookupFib, lookupName]
  cases hhint : interest.forwardingHint with
  | nil => exact h.proper.findLongestPrefixMatch_reaches interest.name faceId
  | cons first rest =>
    obtain ⟨flood, hroute, -⟩ := h.flood
    obtain ⟨-, -, faceId', -, hleads⟩ := exists_leads hroute first
    have hsome : (findLongestPrefixMatch node.fib first).hasNextHops = true :=
      (Entry.hasNextHops_iff _).mpr
        ⟨faceId', (h.proper.findLongestPrefixMatch_reaches first faceId').mpr hleads⟩
    simp only [map_cons, find?_cons_of_pos hsome, Option.getD_some, headD_cons]
    exact h.proper.findLongestPrefixMatch_reaches first faceId

/-! ### Hits of the content store -/

/-- The faces on which `afterContentStoreHit` calls `sendDataToVal`. -/
def hitReplies (node : Node τ) (entry : Pit.Entry) : List ℕ :=
  (((node.lookupFib entry.interest).nextHops.find? fun nextHop =>
    node.isGeoFace nextHop.faceId).map Fib.NextHop.faceId).toList

/-- For an Interest from a geoface, these calls are all that happens. -/
theorem afterContentStoreHit_eq {inFace : ℕ} (hgeo : node.isGeoFace inFace = true)
    (entry : Pit.Entry) (data : Data) :
    node.afterContentStoreHit g entry inFace data =
      (node.hitReplies entry).foldl (fun node outFace =>
        node.sendDataToVal g entry.id data outFace (some entry.getNonceList) false) node := by
  rw [afterContentStoreHit, if_pos hgeo, hitReplies]
  cases (node.lookupFib entry.interest).nextHops.find? fun nextHop =>
    node.isGeoFace nextHop.faceId <;> rfl

theorem Routed.length_hitReplies (h : node.Routed) (entry : Pit.Entry) :
    (node.hitReplies entry).length = 1 ↔
      ∃ faceId, node.val.faces.IsGeo faceId ∧
        Leads node.fib (lookupName entry.interest) faceId := by
  have hfound : (node.hitReplies entry).length = 1 ↔
      ((node.lookupFib entry.interest).nextHops.find? fun nextHop =>
        node.isGeoFace nextHop.faceId).isSome := by
    rw [hitReplies]
    cases (node.lookupFib entry.interest).nextHops.find? fun nextHop =>
      node.isGeoFace nextHop.faceId <;> simp
  rw [hfound, find?_isSome]
  constructor
  · rintro ⟨nextHop, hmem, hgeo⟩
    exact ⟨nextHop.faceId, isGeo_iff_has.mpr hgeo,
      (h.lookupFib_reaches _ _).mp ⟨nextHop, hmem, rfl⟩⟩
  · rintro ⟨faceId, hgeo, hleads⟩
    obtain ⟨nextHop, hmem, rfl⟩ := (h.lookupFib_reaches _ _).mpr hleads
    exact ⟨nextHop, hmem, isGeo_iff_has.mp hgeo⟩

/-- The PIT entry and the Data, if the content store answers the Interest. -/
def contentStoreHit (P : Platform τ) (node : Node τ) (inFace : ℕ) (interest : Interest) :
    Option (Pit.Entry × Data) :=
  if node.isNonLocal inFace && underLocalhost interest.name then none
  else if P.deadNonceListHas node.store interest.name interest.nonce then none
  else
    let entry := (node.pit.insert (withoutHint P interest)).2.1
    if node.hasDuplicateNonce entry inFace (withoutHint P interest) then none
    else if entry.inRecords.isEmpty then
      (P.contentStoreLookup node.store (withoutHint P interest)).2.map fun data => (entry, data)
    else none

/-- The entry with which `onIncomingInterest` gets to `onContentStoreMiss`, and
whether it is new. -/
def contentStoreMiss (P : Platform τ) (node : Node τ) (inFace : ℕ) (interest : Interest) :
    Option (Pit.Entry × Bool) :=
  if node.isNonLocal inFace && underLocalhost interest.name then none
  else if P.deadNonceListHas node.store interest.name interest.nonce then none
  else
    let (_, entry, isNew) := node.pit.insert (withoutHint P interest)
    if node.hasDuplicateNonce entry inFace (withoutHint P interest) then none
    else if entry.inRecords.isEmpty &&
        (P.contentStoreLookup node.store (withoutHint P interest)).2.isSome then none
    else some (entry, isNew)

/-- What becomes of an Interest: it is dropped, it is answered by the content store, or it goes on.
The pipeline gets to the strategy with the FIB and VAL as they were. -/
theorem onIncomingInterest_cases (P : Platform τ) (g : Geometry) (node : Node τ) (inFace : ℕ)
    (interest : Interest) :
    (node.contentStoreHit P inFace interest = none ∧
      node.contentStoreMiss P inFace interest = none ∧
        (node.onIncomingInterest P g inFace interest).val = node.val) ∨
    ∃ reached : Node τ, reached.fib = node.fib ∧ reached.val = node.val ∧
      ((∃ entry data, node.contentStoreHit P inFace interest = some (entry, data) ∧
          node.contentStoreMiss P inFace interest = none ∧
          node.onIncomingInterest P g inFace interest =
            reached.afterContentStoreHit g entry inFace data) ∨
        ∃ entry isNew, node.contentStoreHit P inFace interest = none ∧
          node.contentStoreMiss P inFace interest = some (entry, isNew) ∧
          node.onIncomingInterest P g inFace interest =
            reached.onContentStoreMiss g entry.id inFace isNew (withoutHint P interest)) := by
  have hloop : ∀ (node : Node τ) (interest : Interest),
      (node.onInterestLoop inFace interest).val = node.val := by
    intro node interest
    obtain ⟨sent, heq⟩ := node.onInterestLoop_eq inFace interest
    rw [heq]
  rw [onIncomingInterest, contentStoreHit, contentStoreMiss]
  cases node.isNonLocal inFace && underLocalhost interest.name with
  | true => exact .inl ⟨rfl, rfl, rfl⟩
  | false =>
  cases P.deadNonceListHas node.store interest.name interest.nonce with
  | true => exact .inl ⟨rfl, rfl, hloop node interest⟩
  | false =>
  simp only [if_neg Bool.false_ne_true]
  rw [enterInterest]
  generalize withoutHint P interest = interest
  cases node.pit.insert interest with
  | mk pit rest =>
  obtain ⟨entry, isNew⟩ := rest
  have hdup : ({ node with pit := pit } : Node τ).hasDuplicateNonce entry inFace interest =
    node.hasDuplicateNonce entry inFace interest := rfl
  dsimp only
  rw [hdup]
  cases node.hasDuplicateNonce entry inFace interest with
  | true => exact .inl ⟨rfl, rfl, hloop _ interest⟩
  | false =>
  cases entry.inRecords.isEmpty with
  | false => exact .inr ⟨{ node with pit := pit }, rfl, rfl, .inr ⟨entry, isNew, rfl, rfl, rfl⟩⟩
  | true =>
  cases P.contentStoreLookup node.store interest with
  | mk store answer =>
  cases answer with
  | none =>
    exact .inr ⟨{ node with pit := pit, store := store }, rfl, rfl,
      .inr ⟨entry, isNew, rfl, rfl, rfl⟩⟩
  | some data => refine .inr ⟨_, ?_, ?_, .inl ⟨entry, data, rfl, rfl, rfl⟩⟩ <;> rfl

theorem onIncomingInterest_of_hit {inFace : ℕ} {interest : Interest} {entry : Pit.Entry}
    {data : Data} (h : node.contentStoreHit P inFace interest = some (entry, data)) :
    ∃ reached : Node τ, reached.fib = node.fib ∧ reached.val = node.val ∧
      node.onIncomingInterest P g inFace interest =
        reached.afterContentStoreHit g entry inFace data := by
  rcases onIncomingInterest_cases P g node inFace interest with
    ⟨hhit, -⟩ | ⟨reached, hfib, hval, ⟨entry', data', hhit, -, heq⟩ | ⟨_, _, hhit, -⟩⟩
  · rw [h] at hhit
    cases hhit
  · rw [h] at hhit
    cases hhit
    exact ⟨reached, hfib, hval, heq⟩
  · rw [h] at hhit
    cases hhit

/-- An Interest that has come through a geoface and hits the content store makes
`afterContentStoreHit` call `sendDataToVal` exactly once, if and only if the
longest prefix with routes, of the name or of the first delegation of the
forwarding hint, has a route to a geoface. -/
theorem hit_answered_iff {P : Platform τ} {g : Geometry} {node : Node τ}
    (h : (system P g).Reachable node) {face geoface : ℕ} {valP : ValPacket} {v : ValForwarder}
    {interest : Interest} {entry : Pit.Entry} {data : Data}
    (hrec : node.val.onReceivedValPacket face valP = (v, some (.interest geoface interest)))
    (hhit : ({ node with val := v } : Node τ).contentStoreHit P geoface interest =
      some (entry, data)) :
    ∃ reached : Node τ, (reached.fib = node.fib ∧ reached.val = v) ∧
      node.next P g (.receive face valP) = reached.afterContentStoreHit g entry geoface data ∧
      reached.afterContentStoreHit g entry geoface data =
        (reached.hitReplies entry).foldl (fun node outFace =>
          node.sendDataToVal g entry.id data outFace (some entry.getNonceList) false) reached ∧
      ((reached.hitReplies entry).length = 1 ↔
        ∃ faceId, v.faces.IsGeo faceId ∧
          Fib.Leads node.fib (lookupName entry.interest) faceId) := by
  obtain ⟨reached, hfib, hval, heq⟩ := onIncomingInterest_of_hit g hhit
  have hgeo : reached.isGeoFace geoface = true := by
    rw [isGeoFace, hval]
    exact FaceTable.isGeo_iff_has.mp (ValForwarder.toNfd_interest hrec).1
  have hext : v.faces.Extends node.val.faces := by
    have hgrows := (node.val.onReceivedValPacket_grows face valP).1
    rwa [hrec] at hgrows
  have hrouted : reached.Routed := by
    obtain ⟨hproper, faceId, hroute, hflood⟩ := routed_of_reachable h
    exact ⟨hfib ▸ hproper, faceId, hfib ▸ hroute, hval ▸ hflood.extends hext⟩
  refine ⟨reached, ⟨hfib, hval⟩, ?_, afterContentStoreHit_eq g hgeo entry data, ?_⟩
  · rw [next, onReceivedValPacket, hrec, handOver]
    exact heq
  · have hlength := hrouted.length_hitReplies entry
    rw [hfib, hval] at hlength
    exact hlength

/-- A node that has routes to geofaces only, for all prefixes of the name, answers:
it is a relay or a consumer of the name, not its producer. -/
theorem exists_geoface_of_no_app {g : Geometry} (h : (system P g).Reachable node) {name : Name}
    (hgeo : ∀ n faceId, HasRoute node.fib (name.take n) faceId →
      node.val.faces.IsGeo faceId) :
    ∃ faceId, node.val.faces.IsGeo faceId ∧ Leads node.fib name faceId := by
  obtain ⟨flood, hroute, -⟩ := (routed_of_reachable h).flood
  obtain ⟨n, -, faceId, hroute', hleads⟩ := exists_leads hroute name
  exact ⟨faceId, hgeo n faceId hroute', hleads⟩

/-! ### A producer that caches its own Data -/

/-- The content store is a list of Data, looked up by name. -/
def cachingPlatform : Platform (List Data) :=
  { samplePlatform with
    contentStoreLookup := fun store interest =>
      (store, store.find? fun data => data.name == interest.name)
    contentStoreAdd := fun store data => data :: store
    deadNonceListHas := fun _ _ _ => false
    deadNonceListAdd := fun store _ _ => store }

def freshCache : Node (List Data) :=
  { construct .empty ⟨"0:0:0", "A1", 10000⟩ [] with val := ValForwarder.fresh }

theorem freshCache_reachable : (system cachingPlatform g).Reachable freshCache :=
  .of_init ⟨_, _, [], netFace, rfl, rfl, rfl⟩

/-- The Interest of area A2, with the nonce. -/
def askedFor (nonce : Nonce) : ValPacket where
  valHeader := ⟨"A2", "0", "5:0:0", "/a", 9⟩
  payload := .interest { ValForwarder.sampleInterest with nonce := nonce }

/-- The application on face 258 registers `/a`. An Interest for `/a/1` comes in, and
the application answers it. -/
def producing : List Event :=
  [.addFace makeAppFace, .addRoute ["a"] 258 0, .receive 257 (askedFor 7),
    .incomingData 258 ValForwarder.sampleData]

def producer : Node (List Data) :=
  producing.foldl (next cachingPlatform ValForwarder.flatGeometry) freshCache

theorem producer_reachable : (system cachingPlatform flatGeometry).Reachable producer := by
  refine (freshCache_reachable _).foldl (.cons ?_ (.cons trivial (.cons ?_ (.cons ?_ (.nil _)))))
  · exact (rfl : makeAppFace.isGeoFace = false)
  · exact mem_singleton.mpr rfl
  · exact Exists.intro makeAppFace ⟨rfl, rfl⟩

/-- The next Interest for `/a/1` hits the content store and is not answered. -/
theorem producer_does_not_answer :
    (system cachingPlatform ValForwarder.flatGeometry).Reachable producer ∧
      ∃ v entry, producer.val.onReceivedValPacket 257 (askedFor 8) =
          (v, some (.interest 259 { ValForwarder.sampleInterest with nonce := 8 })) ∧
        ({ producer with val := v } : Node (List Data)).contentStoreHit cachingPlatform 259
          { ValForwarder.sampleInterest with nonce := 8 } =
            some (entry, ValForwarder.sampleData) ∧
        ({ producer with val := v } : Node (List Data)).hitReplies entry = [] :=
  ⟨producer_reachable, _, _, rfl, rfl, rfl⟩

/-- A node that has overheard the Data `/a/1` of area A3. -/
def caching : Node (List Data) :=
  freshCache.next cachingPlatform ValForwarder.flatGeometry (.receive 257 heardData)

theorem caching_reachable : (system cachingPlatform flatGeometry).Reachable caching := by
  have hguard : (system cachingPlatform flatGeometry).guard freshCache
    (.receive 257 heardData) := mem_singleton.mpr rfl
  exact (freshCache_reachable _).next hguard

/-- It answers an Interest for it. -/
theorem hit_answered_iff_caching :
    (system cachingPlatform ValForwarder.flatGeometry).Reachable caching ∧
      ∃ v entry data, caching.val.onReceivedValPacket 257 (askedFor 7) =
          (v, some (.interest 259 ValForwarder.sampleInterest)) ∧
        ({ caching with val := v } : Node (List Data)).contentStoreHit cachingPlatform 259
          ValForwarder.sampleInterest = some (entry, data) ∧
        ∃ reached : Node (List Data), reached.fib = caching.fib ∧
          (reached.hitReplies entry).length = 1 := by
  have hrec : caching.val.onReceivedValPacket 257 (askedFor 7) =
    ((caching.val.onReceivedValPacket 257 (askedFor 7)).1,
      some (.interest 259 ValForwarder.sampleInterest)) := rfl
  refine ⟨caching_reachable, _, _, _, hrec, rfl, ?_⟩
  obtain ⟨reached, ⟨hfib, -⟩, -, -, hiff⟩ := hit_answered_iff caching_reachable hrec rfl
  have hroute : Fib.HasRoute caching.fib ["a"] 258 :=
    ⟨⟨["a"], [⟨258, 1⟩]⟩, by decide, rfl, ⟨258, 1⟩, by decide, rfl⟩
  refine ⟨reached, hfib, hiff.mpr ⟨258, ⟨makeGeoface, rfl, rfl⟩, 1, by decide, hroute, ?_⟩⟩
  rintro m hlt hm faceId ⟨entry, hentry, hname, -⟩
  obtain rfl : m = 2 := by
    have hle : m ≤ 2 := hm
    omega
  revert entry
  decide

end Node

end ValProofs
