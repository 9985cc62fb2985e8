import ValProofs.Pft.Table
import ValProofs.Val.Tables

/-!
`ValForwarder` with its strategy `ValDistancesStrategy`: what it does with a
packet from the network, with an Interest or Data from NFD, and when one of its
timers fires.

The strategy decides with distances and waiting times that are computed in
floating point from positions. They are the parameters collected in
`Geometry`; nothing is assumed about them.

`calls` is a ghost: it records every call of the strategy, with the packet the
strategy handed to `registerOutgoingValPacket` and the entry object this
created.
-/

namespace ValProofs

open Pft (Pending)

/-- What the node's mobility model and random number source currently give. -/
structure Mobility where
  /-- `getMyPos()`. -/
  pos : String
  /-- `getMyArea()`. -/
  area : String
  /-- `generateMicroSecondDelay()`. -/
  delay : ℕ

/-- Distances, truncated to `uint32_t`, and waiting times in nanoseconds. -/
structure Geometry where
  getDistanceToArea : String → String → UInt32
  getDistanceToPoint : String → String → UInt32
  getMultiPointDist : String → List String → UInt32
  /-- Distance, hop count, `toArea`, `isData` and the random delay. -/
  calcFwdTimer : UInt32 → UInt8 → Bool → Bool → ℕ → ℕ
  calcInvertedFwdTimer : UInt32 → UInt8 → Bool → Bool → ℕ → ℕ
  /-- What `getLongestJorney` reads when it dereferences the end of an empty
  list. -/
  pastTheEnd : UInt8 × String

/-- In meters. -/
def signalRange : UInt32 := 110

/-- `ZERO_WAIT`. -/
def zeroWait : ℕ := 0

/-- The arguments of a call of `registerOutgoingValPacket`. -/
structure Outgoing where
  outFaceId : ℕ
  valPkt : ValPacket
  duration : ℕ
  deriving DecidableEq, Repr

inductive StrategyCall
  | ifntHit (ifntEntry : Ifnt.Entry) (interest : Interest)
  | ifntMiss (interest : Interest)
  | dfntHit (dfntEntry : Dfnt.Entry) (ifntEntries : List Ifnt.Entry) (data : Data)
  | dfntMiss (data : Data) (ifntEntries : List Ifnt.Entry) (isProducer : Bool)
  deriving DecidableEq, Repr

structure Call where
  call : StrategyCall
  sent : Option Outgoing
  /-- The address of the entry object, if one was created. -/
  created : Option ℕ
  deriving DecidableEq, Repr

structure ValForwarder where
  ifnt : List Ifnt.Entry
  dfnt : List Dfnt.Entry
  f2a : List F2a.Entry
  networkFaces : List ℕ
  /-- The face table, which is NFD's. -/
  faces : FaceTable
  /-- The PFT with its entry objects and timers. -/
  pending : Pending
  invalidIN : ℕ
  mobility : Mobility
  calls : List Call

namespace ValForwarder

/-! ### The strategy -/

def getGeoArea (v : ValForwarder) (faceId : ℕ) : String :=
  match F2a.findByFaceId v.f2a faceId with
  | some entry => entry.geoArea
  | none => "0"

/-- The first face of `m_networkFaces`, which must not be empty. -/
def getValNetFaceId (v : ValForwarder) : ℕ := v.networkFaces.headD 0

/-- The smallest hop count in the list and the source area of the first entry
that has it. -/
def getLongestJorney (pastTheEnd : UInt8 × String) : List Ifnt.Entry → UInt8 × String
  | [] => pastTheEnd
  | entry :: rest =>
      rest.foldl (fun best entry => if best.1 > entry.hopC then (entry.hopC, entry.sa) else best)
        (entry.hopC, entry.sa)

/-- The Interest of an IFNT entry is sent on towards `da`. -/
abbrev relayed (v : ValForwarder) (ifntEntry : Ifnt.Entry) (da : String) (interest : Interest)
    (duration : ℕ) : Outgoing where
  outFaceId := ifntEntry.faceId
  valPkt :=
    { valHeader := ⟨ifntEntry.sa, da, v.mobility.pos, ifntEntry.rn, ifntEntry.hopC⟩
      payload := .interest interest }
  duration := duration

def doAfterIfntHit (g : Geometry) (v : ValForwarder) (faceId : ℕ) (ifntEntry : Ifnt.Entry)
    (interest : Interest) : Option Outgoing :=
  if ifntEntry.hopC = 0 then none
  else if ifntEntry.da ≠ "0" ∧ ifntEntry.da ≠ v.mobility.area then
    let preHopDist := g.getDistanceToArea ifntEntry.phPos ifntEntry.da
    let myDist := g.getDistanceToArea v.mobility.pos ifntEntry.da
    if myDist < preHopDist then
      some (v.relayed ifntEntry ifntEntry.da interest
        (g.calcFwdTimer myDist ifntEntry.hopC true false v.mobility.delay))
    else none
  else
    -- The exploration phase: no destination yet, or the destination is here.
    let dist := g.getDistanceToPoint ifntEntry.phPos v.mobility.pos
    some (v.relayed ifntEntry (v.getGeoArea faceId) interest
      (g.calcInvertedFwdTimer dist 0 false false v.mobility.delay))

def doAfterIfntMiss (v : ValForwarder) (faceId : ℕ) (interest : Interest) : Outgoing where
  outFaceId := v.getValNetFaceId
  valPkt :=
    { valHeader := ⟨v.mobility.area, v.getGeoArea faceId, v.mobility.pos,
        interest.name.getPrefix1.toUri, maxHops⟩
      payload := .interest interest }
  duration := zeroWait

def doAfterDfntHit (g : Geometry) (v : ValForwarder) (dfntEntry : Dfnt.Entry)
    (ifntEntries : List Ifnt.Entry) (data : Data) : Option Outgoing :=
  if dfntEntry.hopC = 0 then none
  else
    let nextHopsPosList := ifntEntries.map Ifnt.Entry.phPos
    let prevHopDist := g.getMultiPointDist dfntEntry.phPos nextHopsPosList
    let myDist := g.getMultiPointDist v.mobility.pos nextHopsPosList
    if prevHopDist > signalRange ∧ myDist < prevHopDist then
      some
        { outFaceId := dfntEntry.faceId
          valPkt :=
            { valHeader := ⟨dfntEntry.sa, dfntEntry.da, v.mobility.pos, dfntEntry.rn,
                dfntEntry.hopC⟩
              payload := .data data }
          duration := g.calcFwdTimer myDist 0 false true v.mobility.delay }
    else none

/-- The hop count `MAXHOPS - min + 1` is narrowed to `uint8_t`. -/
def doAfterDfntMiss (g : Geometry) (v : ValForwarder) (faceId : ℕ) (data : Data)
    (ifntEntries : List Ifnt.Entry) (isProducer : Bool) : Outgoing where
  outFaceId := v.getValNetFaceId
  valPkt :=
    { valHeader := ⟨if isProducer then v.mobility.area else v.getGeoArea faceId,
        (getLongestJorney g.pastTheEnd ifntEntries).2, v.mobility.pos,
        data.name.getPrefix1.toUri,
        maxHops - (getLongestJorney g.pastTheEnd ifntEntries).1 + 1⟩
      payload := .data data }
  duration := zeroWait

/-- A relayed Interest keeps the hop count and the source of its entry. -/
theorem doAfterIfntHit_eq_some {g : Geometry} {v : ValForwarder} {faceId : ℕ}
    {ifntEntry : Ifnt.Entry} {interest : Interest} {out : Outgoing}
    (h : v.doAfterIfntHit g faceId ifntEntry interest = some out) :
    ifntEntry.hopC ≠ 0 ∧ out.outFaceId = ifntEntry.faceId ∧
      out.valPkt.payload = .interest interest ∧ out.valPkt.hopC = ifntEntry.hopC ∧
      out.valPkt.valHeader.sa = ifntEntry.sa := by
  simp only [doAfterIfntHit] at h
  split at h
  · cases h
  · rename_i hne
    split at h
    · split at h
      · cases h
        exact ⟨hne, rfl, rfl, rfl, rfl⟩
      · cases h
    · cases h
      exact ⟨hne, rfl, rfl, rfl, rfl⟩

/-- A relayed Data keeps the hop count of its entry. -/
theorem doAfterDfntHit_eq_some {g : Geometry} {v : ValForwarder} {dfntEntry : Dfnt.Entry}
    {ifntEntries : List Ifnt.Entry} {data : Data} {out : Outgoing}
    (h : v.doAfterDfntHit g dfntEntry ifntEntries data = some out) :
    dfntEntry.hopC ≠ 0 ∧ out.outFaceId = dfntEntry.faceId ∧
      out.valPkt.payload = .data data ∧ out.valPkt.hopC = dfntEntry.hopC := by
  simp only [doAfterDfntHit] at h
  split at h
  · cases h
  · rename_i hne
    split at h
    · cases h
      exact ⟨hne, rfl, rfl, rfl⟩
    · cases h

/-- Registers the packet, if the strategy sends one. -/
def register (s : Pending) : Option Outgoing → Pending × Option ℕ
  | none => (s, none)
  | some out => s.registerOutgoingValPacket out.outFaceId out.valPkt out.duration

/-- What a call of the strategy does: `sent` goes to the PFT, and the call is
recorded. -/
def sendValPacket (v : ValForwarder) (call : StrategyCall) (sent : Option Outgoing) :
    ValForwarder :=
  { v with
    pending := (register v.pending sent).1
    calls := v.calls ++ [⟨call, sent, (register v.pending sent).2⟩] }

def afterIfntHit (g : Geometry) (v : ValForwarder) (faceId : ℕ) (ifntEntry : Ifnt.Entry)
    (interest : Interest) : ValForwarder :=
  v.sendValPacket (.ifntHit ifntEntry interest) (v.doAfterIfntHit g faceId ifntEntry interest)

def afterIfntMiss (v : ValForwarder) (faceId : ℕ) (interest : Interest) : ValForwarder :=
  v.sendValPacket (.ifntMiss interest) (some (v.doAfterIfntMiss faceId interest))

def afterDfntHit (g : Geometry) (v : ValForwarder) (dfntEntry : Dfnt.Entry)
    (ifntEntries : List Ifnt.Entry) (data : Data) : ValForwarder :=
  v.sendValPacket (.dfntHit dfntEntry ifntEntries data)
    (v.doAfterDfntHit g dfntEntry ifntEntries data)

def afterDfntMiss (g : Geometry) (v : ValForwarder) (faceId : ℕ) (data : Data)
    (ifntEntries : List Ifnt.Entry) (isProducer : Bool) : ValForwarder :=
  v.sendValPacket (.dfntMiss data ifntEntries isProducer)
    (some (v.doAfterDfntMiss g faceId data ifntEntries isProducer))

/-! ### From the network -/

/-- What VAL hands to NFD through a geoface. -/
inductive ToNfd
  | interest (geoface : ℕ) (interest : Interest)
  | data (geoface : ℕ) (data : Data)
  deriving DecidableEq, Repr

/-- One half of `makeGeoFaceFromValHeader`; the identifier is kept in a
`uint32_t`. -/
def makeGeoFace (v : ValForwarder) (area : String) : ValForwarder × ℕ :=
  match F2a.findByGeoArea v.f2a area with
  | some entry => (v, entry.faceId % 2 ^ 32)
  | none =>
      let faces := v.faces.add makeGeoface
      let faceId := faces.lastFaceId % 2 ^ 32
      ({ v with faces := faces, f2a := F2a.addEntry v.f2a ⟨faceId, area⟩ }, faceId)

def makeGeoFaceFromValHeader (v : ValForwarder) (valH : ValHeader) : ValForwarder × ℕ × ℕ :=
  let (v, faceIdSA) := v.makeGeoFace valH.sa
  let (v, faceIdDA) := v.makeGeoFace valH.da
  (v, faceIdSA, faceIdDA)

/-- `sendInterestToForwarder` and `sendDataToForwarder` do nothing on a face
that is not a geoface. -/
def toForwarder (v : ValForwarder) (geoface : ℕ) (packet : ToNfd) : Option ToNfd :=
  match v.faces.get geoface with
  | some face => if face.isGeoFace then some packet else none
  | none => none

def processInterestFromNetwork (v : ValForwarder) (face : ℕ) (valH : ValHeader)
    (interest : Interest) : ValForwarder × Option ToNfd :=
  match Ifnt.addEntry v.ifnt (Ifnt.Entry.make valH interest face) with
  | (_, false) => (v, none)
  | (ifnt, true) =>
      let (v, faceIdSA, faceIdDA) := { v with ifnt := ifnt }.makeGeoFaceFromValHeader valH
      let interest :=
        if valH.da ≠ "0" then { interest with nextHopFaceId := some faceIdDA } else interest
      (v, v.toForwarder faceIdSA (.interest faceIdSA interest))

def processDataFromNetwork (v : ValForwarder) (face : ℕ) (valH : ValHeader) (data : Data) :
    ValForwarder × Option ToNfd :=
  let dfnt := Dfnt.addEntry v.dfnt (Dfnt.Entry.make valH data face)
  let (v, faceIdSA, _) := { v with dfnt := dfnt }.makeGeoFaceFromValHeader valH
  (v, v.toForwarder faceIdSA (.data faceIdSA data))

def onReceivedValPacket (v : ValForwarder) (face : ℕ) (valP : ValPacket) :
    ValForwarder × Option ToNfd :=
  match v.pending.preProcessingValPacket valP with
  | (pending, false) => ({ v with pending := pending }, none)
  | (pending, true) =>
      let v := { v with pending := pending }
      match valP.payload with
      | .interest interest => v.processInterestFromNetwork face valP.valHeader interest
      | .data data => v.processDataFromNetwork face valP.valHeader data
      | .notSet => ({ v with invalidIN := v.invalidIN + 1 }, none)

/-! ### From NFD -/

def reveiceInterest (g : Geometry) (v : ValForwarder) (inGeoface : ℕ) (interest : Interest) :
    ValForwarder :=
  match Ifnt.findMatchByNonce v.ifnt interest.nonce with
  | some ifntEntry => v.afterIfntHit g inGeoface ifntEntry interest
  | none => v.afterIfntMiss inGeoface interest

/-- The list of nonces is passed by pointer; `none` is the null pointer, which
must only come with the mark 501. -/
def reveiceData (g : Geometry) (v : ValForwarder) (inGeoface : ℕ) (data : Data)
    (nonceList : Option (List Nonce)) (isProducer : Bool) : ValForwarder :=
  if data.getCongestionMark = 501 then
    match Dfnt.findMatch v.dfnt data.signature with
    | some toRemove => { v with dfnt := Dfnt.removeEntry v.dfnt toRemove }
    | none => v
  else
    let nonceList := nonceList.getD []
    let ifntEntriesList := Ifnt.findMatchByNonceList v.ifnt nonceList
    let v := { v with ifnt := Ifnt.removeEntriesByNonceList v.ifnt nonceList }
    match Dfnt.findMatch v.dfnt data.signature, isProducer with
    | some dfntEntry, false =>
        let v :=
          { v with
            pending := v.pending.cancelPendingInterests nonceList
            dfnt := Dfnt.removeEntry v.dfnt dfntEntry }
        if data.getCongestionMark ≠ 500 then v.afterDfntHit g dfntEntry ifntEntriesList data
        else v
    | some dfntEntry, true =>
        let v := v.afterDfntMiss g inGeoface data ifntEntriesList true
        { v with dfnt := Dfnt.removeEntry v.dfnt dfntEntry }
    | none, isProducer => v.afterDfntMiss g inGeoface data ifntEntriesList isProducer

/-! ### Timers, faces and construction -/

def fire (v : ValForwarder) (id : ℕ) : ValForwarder :=
  { v with pending := v.pending.fire v.faces id }

/-- A face is added to the face table. VAL is told when it is a `ValNetFace`. -/
def addFace (v : ValForwarder) (face : Face) : ValForwarder :=
  { v with
    faces := v.faces.add face
    networkFaces :=
      if face.isValNetFace then v.networkFaces ++ [v.faces.lastFaceId + 1]
      else v.networkFaces }

/-- The constructor makes the flood face. -/
def construct (faces : FaceTable) (mobility : Mobility) : ValForwarder where
  ifnt := []
  dfnt := []
  f2a := [⟨faces.lastFaceId + 1, "0"⟩]
  networkFaces := []
  faces := faces.add makeGeoface
  pending := Pending.empty
  invalidIN := 0
  mobility := mobility
  calls := []

end ValForwarder

end ValProofs
