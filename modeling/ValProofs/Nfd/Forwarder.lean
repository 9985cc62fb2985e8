import ValProofs.Nfd.Fib
import ValProofs.Nfd.Pit
import ValProofs.Val.Forwarder

/-!
A node: the forwarding pipelines of NFD with `BroadcastStrategy` as the strategy
of every namespace, on top of a `ValForwarder`. What NFD hands to a geoface VAL
processes at once, in the middle of the pipeline. What it hands to another face
only leaves the node, since the callbacks of applications are decoupled by the
simulator.

The content store and the dead nonce list are a state of an arbitrary type
`τ`, and what NFD asks of them, of Interest selectors and of the network regions
is collected in `Platform`. So are the orders in which NFD goes through a
`std::set` of faces and through the PIT entries that match a Data.
-/

namespace ValProofs

structure Platform (τ : Type) where
  /-- `Interest::matchesData`. -/
  matchesData : Interest → Data → Bool
  contentStoreLookup : τ → Interest → τ × Option Data
  contentStoreAdd : τ → Data → τ
  deadNonceListHas : τ → Name → Nonce → Bool
  deadNonceListAdd : τ → Name → Nonce → τ
  /-- In milliseconds. -/
  deadNonceListLifetime : ℕ
  isInProducerRegion : List Name → Bool
  /-- The order of a `std::set<Face*>`. -/
  setOrder : List ℕ → List ℕ
  perm_setOrder : ∀ faces, (setOrder faces).Perm faces
  /-- The order in which `findAllDataMatches` finds entries. -/
  matchOrder : List ℕ → List ℕ
  perm_matchOrder : ∀ ids, (matchOrder ids).Perm ids

/-- What leaves the node through a face that is not a geoface. -/
inductive Sent
  | interest (faceId : ℕ) (interest : Interest)
  | data (faceId : ℕ) (data : Data)
  | nack (faceId : ℕ) (interest : Interest)
  deriving DecidableEq, Repr

structure Node (τ : Type) where
  val : ValForwarder
  pit : Pit.Table
  fib : List Fib.Entry
  /-- The content store and the dead nonce list. -/
  store : τ
  now : ℕ
  sent : List Sent

namespace Node

variable {τ : Type}

/-! ### Faces and scopes -/

section Faces

variable (node : Node τ) (faceId : ℕ)

def isGeoFace : Bool := node.val.faces.has Face.isGeoFace faceId

def isAppFace : Bool := node.val.faces.has Face.isAppFace faceId

def isValNetFace : Bool := node.val.faces.has Face.isValNetFace faceId

/-- `getScope() == FACE_SCOPE_NON_LOCAL`. -/
def isNonLocal : Bool := node.val.faces.has (fun face => !face.isLocal) faceId

def isPointToPoint : Bool := node.val.faces.has Face.isPointToPoint faceId

end Faces

/-- `scope_prefix::LOCALHOST.isPrefixOf(name)`. -/
def underLocalhost (name : Name) : Bool := ["localhost"].isPrefixOf name

/-- `scope_prefix::LOCALHOP.isPrefixOf(name)`. -/
def underLocalhop (name : Name) : Bool := ["localhop"].isPrefixOf name

def wouldViolateScope (node : Node τ) (inFace : ℕ) (interest : Interest) (outFace : ℕ) : Bool :=
  if !node.isNonLocal outFace then false
  else if underLocalhost interest.name then true
  else if underLocalhop interest.name then node.isNonLocal inFace
  else false

/-! ### Tables -/

def modifyPit (node : Node τ) (id : ℕ) (f : Pit.Entry → Pit.Entry) : Node τ :=
  { node with pit := node.pit.modify id f }

/-- A timer `duration` milliseconds from now. -/
def setExpiryTimer (node : Node τ) (id duration : ℕ) : Node τ :=
  node.modifyPit id fun entry =>
    { entry with expiryTimer := some (node.now + Pit.nanoseconds duration) }

def addRoute (node : Node τ) (name : Name) (faceId cost : ℕ) : Node τ :=
  { node with fib := Fib.addRoute node.fib name faceId cost }

/-- `Strategy::lookupFib`. -/
def lookupFib (node : Node τ) (interest : Interest) : Fib.Entry :=
  match interest.forwardingHint with
  | [] => Fib.findLongestPrefixMatch node.fib interest.name
  | hint => ((hint.map (Fib.findLongestPrefixMatch node.fib)).find? Fib.Entry.hasNextHops).getD
      Fib.emptyEntry

/-- `none` as upstream stands for all of them. -/
def insertDeadNonceList (P : Platform τ) (node : Node τ) (entry : Pit.Entry)
    (upstream : Option ℕ) : Node τ :=
  let needDnl :=
    if entry.isSatisfied then
      entry.interest.selectors.mustBeFresh &&
        entry.dataFreshnessPeriod < P.deadNonceListLifetime
    else true
  if needDnl then
    let records :=
      match upstream with
      | none => entry.outRecords
      | some faceId => (entry.getOutRecord faceId).toList
    { node with
      store := records.foldl
        (fun store r => P.deadNonceListAdd store entry.interest.name r.lastNonce) node.store }
  else node

/-! ### Outgoing packets -/

def onOutgoingInterest (g : Geometry) (node : Node τ) (id outFace : ℕ) (interest : Interest) :
    Node τ :=
  let node := node.modifyPit id fun entry =>
    entry.insertOrUpdateOutRecord node.now outFace interest
  if node.isGeoFace outFace then
    { node with val := node.val.reveiceInterest g outFace interest }
  else { node with sent := node.sent ++ [.interest outFace interest] }

def onOutgoingData (g : Geometry) (node : Node τ) (data : Data) (outFace : ℕ)
    (nonceList : Option (List Nonce)) (isProducer : Bool) : Node τ :=
  if node.isNonLocal outFace && underLocalhost data.name then node
  else if node.isGeoFace outFace then
    { node with val := node.val.reveiceData g outFace data nonceList isProducer }
  else { node with sent := node.sent ++ [.data outFace data] }

/-- `Face::sendDataToVal`, which does nothing on other faces. -/
def faceSendDataToVal (g : Geometry) (node : Node τ) (faceId : ℕ) (data : Data)
    (nonceList : Option (List Nonce)) (isProducer : Bool) : Node τ :=
  if node.isGeoFace faceId then
    { node with val := node.val.reveiceData g faceId data nonceList isProducer }
  else node

/-! ### The strategy -/

/-- `Strategy::sendData`. -/
def sendData (g : Geometry) (node : Node τ) (id : ℕ) (data : Data) (outFace : ℕ) : Node τ :=
  if node.isGeoFace outFace then node
  else
    (node.modifyPit id fun entry => entry.deleteInRecord outFace).onOutgoingData g data outFace
      none false

/-- `Strategy::sendDataToVal`. -/
def sendDataToVal (g : Geometry) (node : Node τ) (id : ℕ) (data : Data) (outFace : ℕ)
    (nonceList : Option (List Nonce)) (isProducer : Bool) : Node τ :=
  (node.modifyPit id fun entry => entry.deleteInRecord outFace).onOutgoingData g data outFace
    nonceList isProducer

/-- `Strategy::rejectPendingInterest`. -/
def rejectPendingInterest (node : Node τ) (id : ℕ) : Node τ := node.setExpiryTimer id 0

/-- An application, or else the first geoface. -/
def afterReceiveInterest (g : Geometry) (node : Node τ) (id inFace : ℕ) (pitInterest : Interest)
    (interest : Interest) : Node τ :=
  let candidates := (node.lookupFib pitInterest).nextHops.filter fun nextHop =>
    !node.isValNetFace nextHop.faceId && !node.wouldViolateScope inFace interest nextHop.faceId
  let outFace :=
    (candidates.find? fun nextHop => node.isAppFace nextHop.faceId) <|>
      candidates.find? fun nextHop => node.isGeoFace nextHop.faceId
  match outFace with
  | none => node.rejectPendingInterest id
  | some nextHop => node.onOutgoingInterest g id nextHop.faceId interest

def afterContentStoreHit (g : Geometry) (node : Node τ) (entry : Pit.Entry) (inFace : ℕ)
    (data : Data) : Node τ :=
  if node.isGeoFace inFace then
    match (node.lookupFib entry.interest).nextHops.find? fun nextHop =>
        node.isGeoFace nextHop.faceId with
    | none => node
    | some nextHop =>
        node.sendDataToVal g entry.id data nextHop.faceId (some entry.getNonceList) false
  else node.sendData g entry.id data inFace

/-- What the loop of `afterReceiveData` changes. The Data is one object, and the
mark that is set on it stays. -/
structure Downstream (τ : Type) where
  node : Node τ
  data : Data
  sentToGeoFace : Bool

/-- One turn of the loop. -/
def sendDownstream (g : Geometry) (id inFace : ℕ) (isProducer : Bool) (s : Downstream τ)
    (downstream : ℕ) : Downstream τ :=
  match s.node.pit.get id with
  | none => s
  | some entry =>
      if s.node.isGeoFace downstream && !s.sentToGeoFace then
        { s with
          node := s.node.sendDataToVal g id s.data downstream (some entry.getNonceList)
            isProducer
          sentToGeoFace := true }
      else if !s.node.isGeoFace downstream then
        let node := s.node.sendData g id s.data downstream
        -- Applications have VAL clean up.
        if s.node.isGeoFace inFace && s.node.isAppFace downstream then
          let data := s.data.setCongestionMark 500
          { s with
            node := node.faceSendDataToVal g inFace data (some entry.getNonceList) false
            data := data }
        else { s with node := node }
      else { s with node := s.node.modifyPit id fun entry => entry.deleteInRecord downstream }

/-- The faces are served in the order `order`. -/
def afterReceiveData (g : Geometry) (order : List ℕ → List ℕ) (node : Node τ) (id inFace : ℕ)
    (data : Data) : Node τ × Data :=
  match node.pit.get id with
  | none => (node, data)
  | some entry =>
      let isProducer := !node.isGeoFace inFace
      let node :=
        if node.isGeoFace inFace then node.addRoute data.name.getPrefix1 inFace 1 else node
      let s := (order (entry.pendingDownstreams node.now)).foldl
        (sendDownstream g id inFace isProducer) ⟨node, data, false⟩
      (s.node, s.data)

/-! ### Incoming Interests -/

def onInterestLoop (node : Node τ) (inFace : ℕ) (interest : Interest) : Node τ :=
  if node.isPointToPoint inFace && !node.isGeoFace inFace then
    { node with sent := node.sent ++ [.nack inFace interest] }
  else node

/-- What `onContentStoreMiss` makes of an Interest that says its next hop: the
face it goes to. At a producer that is the application, and the forwarding hint
is taken off the Interest, which is the object in the PIT entry if `isNew`. -/
def chooseNextHop (node : Node τ) (id inFace : ℕ) (isNew : Bool) (nextHopFaceId : ℕ)
    (interest : Interest) : Node τ × ℕ × Interest :=
  let fibEntry := Fib.findLongestPrefixMatch node.fib interest.name
  if node.isGeoFace inFace then
    if fibEntry.hasNextHops then
      match fibEntry.nextHops.find? fun nextHop => node.isAppFace nextHop.faceId with
      | some nextHop =>
          let node :=
            if isNew then
              node.modifyPit id fun entry =>
                { entry with interest := { entry.interest with forwardingHint := [] } }
            else node
          (node, nextHop.faceId, { interest with forwardingHint := [] })
      | none => (node, nextHopFaceId, interest)
    else (node.addRoute interest.name.getPrefix1 nextHopFaceId 1, nextHopFaceId, interest)
  else (node, nextHopFaceId, interest)

/-- `isNew` says that the PIT entry has been made for this very Interest. -/
def onContentStoreMiss (g : Geometry) (node : Node τ) (id inFace : ℕ) (isNew : Bool)
    (interest : Interest) : Node τ :=
  let node := node.modifyPit id fun entry =>
    entry.insertOrUpdateInRecord node.now inFace interest
  let lastExpiry := ((node.pit.get id).map Pit.Entry.lastExpiry).getD 0
  let node := node.setExpiryTimer id ((lastExpiry - node.now) / 1000000)
  match interest.nextHopFaceId with
  | some nextHopFaceId =>
      if (node.val.faces.get nextHopFaceId).isNone then node
      else
        let (node, nextHopFace, interest) :=
          node.chooseNextHop id inFace isNew nextHopFaceId interest
        let node :=
          if node.isAppFace inFace then
            node.addRoute interest.name.getPrefix1 nextHopFace 1
          else node
        node.onOutgoingInterest g id nextHopFace interest
  | none =>
      let pitInterest := ((node.pit.get id).map Pit.Entry.interest).getD interest
      node.afterReceiveInterest g id inFace pitInterest interest

def onContentStoreHit (g : Geometry) (node : Node τ) (entry : Pit.Entry) (inFace : ℕ)
    (data : Data) : Node τ :=
  let node := node.modifyPit entry.id fun entry =>
    { entry with isSatisfied := true, dataFreshnessPeriod := data.freshnessPeriod }
  let node := node.setExpiryTimer entry.id 0
  node.afterContentStoreHit g entry inFace data

def hasDuplicateNonce (node : Node τ) (entry : Pit.Entry) (inFace : ℕ) (interest : Interest) :
    Bool :=
  entry.hasDuplicateNonce (node.isPointToPoint inFace) (node.isGeoFace inFace) inFace interest

/-- The Interest without its forwarding hint, in the producer's region. -/
def withoutHint (P : Platform τ) (interest : Interest) : Interest :=
  if !interest.forwardingHint.isEmpty && P.isInProducerRegion interest.forwardingHint then
    { interest with forwardingHint := [] }
  else interest

/-- What `onIncomingInterest` does after it has looked at the scope, the dead nonce
list and the forwarding hint. -/
def enterInterest (P : Platform τ) (g : Geometry) (node : Node τ) (inFace : ℕ)
    (interest : Interest) : Node τ :=
  match node.pit.insert interest with
  | (pit, entry, isNew) =>
      let node := { node with pit := pit }
      if node.hasDuplicateNonce entry inFace interest then node.onInterestLoop inFace interest
      else if entry.inRecords.isEmpty then
        match P.contentStoreLookup node.store interest with
        | (store, some data) =>
            { node with store := store }.onContentStoreHit g entry inFace data
        | (store, none) =>
            { node with store := store }.onContentStoreMiss g entry.id inFace isNew interest
      else node.onContentStoreMiss g entry.id inFace isNew interest

def onIncomingInterest (P : Platform τ) (g : Geometry) (node : Node τ) (inFace : ℕ)
    (interest : Interest) : Node τ :=
  if node.isNonLocal inFace && underLocalhost interest.name then node
  else if P.deadNonceListHas node.store interest.name interest.nonce then
    node.onInterestLoop inFace interest
  else node.enterInterest P g inFace (withoutHint P interest)

def onInterestFinalize (P : Platform τ) (node : Node τ) (id : ℕ) : Node τ :=
  match node.pit.get id with
  | none => node
  | some entry =>
      let node := node.insertDeadNonceList P entry none
      { node with pit := node.pit.erase id }

/-! ### Incoming Data -/

def onDataUnsolicited (P : Platform τ) (g : Geometry) (node : Node τ) (inFace : ℕ)
    (data : Data) : Node τ :=
  if !node.isNonLocal inFace then node
  else if node.isGeoFace inFace then
    let isProducer := (Fib.findLongestPrefixMatch node.fib data.name).nextHops.any
      fun nextHop => node.isAppFace nextHop.faceId
    let node := if isProducer then node else node.addRoute data.name.getPrefix1 inFace 1
    -- Has VAL clean its DFNT.
    let data := data.setCongestionMark 501
    let node := node.faceSendDataToVal g inFace data none isProducer
    if isProducer then node else { node with store := P.contentStoreAdd node.store data }
  else { node with store := P.contentStoreAdd node.store data }

/-- What happens to one PIT entry that the Data satisfies. -/
def satisfy (P : Platform τ) (g : Geometry) (inFace : ℕ) (s : Node τ × Data) (id : ℕ) :
    Node τ × Data :=
  let node := s.1.setExpiryTimer id 0
  let (node, data) := node.afterReceiveData g P.setOrder id inFace s.2
  let node := node.modifyPit id fun entry =>
    { entry with isSatisfied := true, dataFreshnessPeriod := data.freshnessPeriod }
  let node :=
    match node.pit.get id with
    | none => node
    | some entry => node.insertDeadNonceList P entry (some inFace)
  (node.modifyPit id fun entry => entry.deleteOutRecord inFace, data)

def findAllDataMatches (P : Platform τ) (node : Node τ) (data : Data) : List ℕ :=
  P.matchOrder ((node.pit.entries.filter fun entry => P.matchesData entry.interest data).map
    Pit.Entry.id)

def onIncomingData (P : Platform τ) (g : Geometry) (node : Node τ) (inFace : ℕ) (data : Data) :
    Node τ :=
  if node.isNonLocal inFace && underLocalhost data.name then node
  else
    match node.findAllDataMatches P data with
    | [] => node.onDataUnsolicited P g inFace data
    | pitMatches =>
        let node := { node with store := P.contentStoreAdd node.store data }
        (pitMatches.foldl (satisfy P g inFace) (node, data)).1

/-! ### Nacks -/

/-- `BroadcastStrategy` does nothing after a Nack. -/
def onIncomingNack (node : Node τ) (inFace : ℕ) (interest : Interest) : Node τ :=
  if !node.isPointToPoint inFace then node
  else
    match node.pit.find interest with
    | none => node
    | some entry =>
        match entry.getOutRecord inFace with
        | none => node
        | some outRecord =>
            if outRecord.lastNonce ≠ interest.nonce then node
            else
              let node := node.modifyPit entry.id fun entry => entry.setIncomingNack inFace
              if Pit.hasPendingOutRecords (entry.setIncomingNack inFace) node.now then node
              else node.setExpiryTimer entry.id 0

/-! ### From the network -/

/-- What VAL hands over, NFD processes at once. -/
def handOver (P : Platform τ) (g : Geometry) (node : Node τ) :
    ValForwarder × Option ValForwarder.ToNfd → Node τ
  | (val, none) => { node with val := val }
  | (val, some (.interest geoface interest)) =>
      { node with val := val }.onIncomingInterest P g geoface interest
  | (val, some (.data geoface data)) => { node with val := val }.onIncomingData P g geoface data

/-- A packet that VAL has received, with what NFD makes of it. -/
def onReceivedValPacket (P : Platform τ) (g : Geometry) (node : Node τ) (face : ℕ)
    (valP : ValPacket) : Node τ :=
  node.handOver P g (node.val.onReceivedValPacket face valP)

/-- The constructor of `ValForwarder` makes the flood face the default route. -/
def construct (faces : FaceTable) (mobility : Mobility) (store : τ) : Node τ where
  val := ValForwarder.construct faces mobility
  pit := Pit.Table.empty
  fib := Fib.addRoute [] [] (faces.lastFaceId + 1) 1
  store := store
  now := 0
  sent := []

end Node

end ValProofs
