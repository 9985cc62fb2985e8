import ValProofs.Link.Fragmenter
import ValProofs.Link.Reassembler

/-!
`ValLinkService`: VAL packets go out as LpPackets that carry a `ValHeader`
field, and come in again from them.

On the way out the tags of the network packet become fields, the packet is
fragmented if it is too large for the MTU, the fragments get sequence numbers
and some of them a congestion mark. On the way in a packet goes through the
reassembler, and when a network packet is complete, the header and the network
packet are decoded and handed on. A decoder that finds a field it does not
accept returns a null pointer, and what is handed on then has no network packet
set.

A `ValHeader` keeps the block it was decoded from or encoded to, and its setters
do not drop it. No header is changed after it has been constructed, so the block
that is sent is the encoding of the members.

The decoders of Interests, Data and prefix announcements are parameters. Those
of the first two throw nothing but `tlv::Error`; a prefix announcement may have
a validity period with an impossible date, for which the time library throws
something else.
-/

namespace ValProofs.Link

open Lib

/-- The tags of a network packet. -/
structure Tags where
  hopCount : Option UInt64
  congestionMark : Option UInt64
  nonDiscovery : Bool
  /-- The octets of a `PrefixAnnouncementHeader`. -/
  prefixAnnouncement : Option (List UInt8)
  incomingFaceId : Option UInt64
  nextHopFaceId : Option UInt64
  /-- The policy `NO_CACHE`, the only one there is. -/
  cachePolicy : Bool
  deriving DecidableEq, Repr

def Tags.none : Tags := ⟨.none, .none, false, .none, .none, .none, false⟩

/-- The network packet inside a `ValPacket`, with its octets and its tags. -/
inductive Payload
  | notSet
  | interest (interest : Interest) (wire : WireBlock) (tags : Tags)
  | data (data : Data) (wire : WireBlock) (tags : Tags)
  deriving DecidableEq, Repr

namespace Payload

/-- The network packet. -/
def wire : Payload → Option WireBlock
  | .notSet => none
  | .interest _ wire _ => some wire
  | .data _ wire _ => some wire

def tags : Payload → Tags
  | .notSet => .none
  | .interest _ _ tags => tags
  | .data _ _ tags => tags

/-- The octets of the network packet. -/
def octets (payload : Payload) : Option (List UInt8) := payload.wire.map WireBlock.octets

end Payload

structure ValPacket where
  valHeader : ValHeader
  payload : Payload
  deriving DecidableEq, Repr

/-- The decoders of the packet library, and the octet that happens to be in
`m_hopC` of a header that is being constructed. -/
structure Codec where
  interest : WireBlock → Except Tlv.Error Interest
  data : WireBlock → Except Tlv.Error Data
  prefixAnnouncement : List UInt8 → Except Failure Unit
  uninitialized : UInt8

/-- Decoders that take everything, and read the octets of a Data as its
content. -/
def contentCodec : Codec where
  interest := fun _ => .ok ⟨[], 0, ⟨false, []⟩, 4000, [], none⟩
  data := fun wire => .ok ⟨[], ⟨⟨-1, none, []⟩, ⟨23, []⟩⟩, 0, wire.value, none⟩
  prefixAnnouncement := fun _ => .ok ()
  uninitialized := 0

structure Options where
  allowLocalFields : Bool := false
  allowFragmentation : Bool := false
  fragmenterOptions : FragmenterOptions := {}
  allowReassembly : Bool := false
  /-- `reassemblerOptions.nMaxFragments`. -/
  nMaxFragments : ℕ := 400
  allowCongestionMarking : Bool := false
  /-- In nanoseconds. -/
  baseCongestionMarkingInterval : ℕ := 100000000
  defaultCongestionThreshold : ℕ := 65536
  allowSelfLearning : Bool := true
  deriving DecidableEq, Repr

/-- The options with which the stack helper makes the link services. -/
def Options.stackHelper : Options where
  allowFragmentation := true
  allowReassembly := true
  allowCongestionMarking := true

structure Service where
  options : Options
  reassembler : Reassembler
  lastSeqNo : UInt64
  /-- In nanoseconds; none is `TimePoint::max()`. -/
  nextMarkTime : Option ℤ
  /-- None is `TimePoint::min()`. -/
  lastMarkTime : Option ℤ
  nMarkedSinceInMarkingState : ℕ
  nFragmentationErrors : ℕ
  nOutOverMtu : ℕ
  nInLpInvalid : ℕ
  nInNetInvalid : ℕ
  nCongestionMarked : ℕ
  nInValPkt : ℕ

/-- A new link service; the sequence number starts at `-2`. -/
def Service.initial (options : Options) : Service where
  options := options
  reassembler := .initial options.nMaxFragments
  lastSeqNo := UInt64.ofNat (2 ^ 64 - 2)
  nextMarkTime := none
  lastMarkTime := none
  nMarkedSinceInMarkingState := 0
  nFragmentationErrors := 0
  nOutOverMtu := 0
  nInLpInvalid := 0
  nInNetInvalid := 0
  nCongestionMarked := 0
  nInValPkt := 0

/-- What a link service finds while it sends a packet: the MTU of the device,
which is 16 bits wide (none is `MTU_UNLIMITED`), and for each LpPacket the queue
and the time. -/
structure Environment where
  mtu : Option UInt16
  sendQueueCapacity : ℤ
  sendQueueLength : ℕ → ℤ
  now : ℕ → ℤ
  /-- The base interval over the square root of the number of marks, in
  nanoseconds. -/
  markingInterval : ℕ → ℤ

/-- `getMtu()` of the transport, which is an `ssize_t`. -/
def Environment.getMtu (env : Environment) : Option ℕ := env.mtu.map UInt16.toNat

/-! ### Sending -/

namespace Packet

/-- `add` for a tag that is set. -/
def addOpt (packet : Packet) (f : Field) : Option (List UInt8) → Except Failure Packet
  | none => .ok packet
  | some value => packet.add f value

end Packet

def encodeLpFields (options : Options) (tags : Tags) (lpPacket : Packet) :
    Except Failure Packet := do
  let lpPacket ← lpPacket.addOpt .incomingFaceId
    (if options.allowLocalFields then
      tags.incomingFaceId.map fun id => nonNegativeInteger id.toNat
    else none)
  let lpPacket ← lpPacket.addOpt .congestionMark
    (tags.congestionMark.map fun mark => nonNegativeInteger mark.toNat)
  let lpPacket ← lpPacket.addOpt .nonDiscovery
    (if options.allowSelfLearning && tags.nonDiscovery then some [] else none)
  let lpPacket ← lpPacket.addOpt .prefixAnnouncement
    (if options.allowSelfLearning then tags.prefixAnnouncement else none)
  lpPacket.add .hopCountTag (Packet.encodeUInt64 (tags.hopCount.getD 0))

/-- The LpPacket of a network packet: `lp::Packet lpPacket(wire)`,
`encodeLpFields` and the `ValHeader`. -/
def makeLpPacket (options : Options) (valHeader : ValHeader) (wire : WireBlock) (tags : Tags) :
    Except Failure Packet := do
  let lpPacket ← (Packet.wireDecode wire).mapError .tlvError
  let lpPacket ← encodeLpFields options tags lpPacket
  lpPacket.add .valHeader valHeader.wireEncode.value

/-- Room for a `CongestionMark` field. -/
def congestionMarkSize : ℕ := 3 + 1 + 8

/-- The first part of `sendValPacket`: the packets to send, or none if the
fragmentation fails. -/
def fragments (options : Options) (mtu : Option ℕ) (pkt : Packet) :
    Except Failure (Option (List Packet)) :=
  match mtu with
  | none => .ok (some [pkt])
  | some mtu =>
      let reserved := if options.allowCongestionMarking then congestionMarkSize else 0
      if mtu ≤ reserved then .error (.assertion "mtu == MTU_UNLIMITED || mtu > 0")
      else if options.allowFragmentation then
        fragmentPacket options.fragmenterOptions pkt (mtu - reserved)
      else .ok (some [pkt])

/-- The assertions on a packet that was not fragmented. -/
def checkSingle : List Packet → Except Failure Unit
  | [pkt] =>
      if pkt.has .fragIndex then .error (.assertion "!frags.front().has<lp::FragIndexField>()")
      else if pkt.has .fragCount then
        .error (.assertion "!frags.front().has<lp::FragCountField>()")
      else .ok ()
  | _ => .ok ()

/-- `assignSequences`. -/
def assignSequences (lastSeqNo : UInt64) : List Packet → Except Failure (UInt64 × List Packet)
  | [] => .ok (lastSeqNo, [])
  | pkt :: pkts => do
      let pkt ← pkt.set .sequence (Packet.encodeUInt64 (lastSeqNo + 1))
      let (lastSeqNo, pkts) ← assignSequences (lastSeqNo + 1) pkts
      return (lastSeqNo, pkt :: pkts)

namespace Service

/-- The send queue is congested, and it is time for a mark. -/
def isTimeToMark (s : Service) (env : Environment) (i : ℕ) : Bool :=
  (match s.nextMarkTime with
    | none => false
    | some next => next ≤ env.now i) ||
  match s.lastMarkTime with
    | none => true
    | some last => last + s.options.baseCongestionMarkingInterval ≤ env.now i

def congestionThreshold (s : Service) (env : Environment) : ℕ :=
  if 0 ≤ env.sendQueueCapacity then
    min s.options.defaultCongestionThreshold (env.sendQueueCapacity.toNat / 2)
  else s.options.defaultCongestionThreshold

/-- The `i`-th LpPacket may get a congestion mark. -/
def checkCongestionLevel (s : Service) (env : Environment) (i : ℕ) (pkt : Packet) :
    Except Failure (Service × Packet) :=
  if env.sendQueueLength i < 0 then .ok (s, pkt)
  else if s.congestionThreshold env < (env.sendQueueLength i).toNat then
    if s.isTimeToMark env i then do
      let next := if s.nMarkedSinceInMarkingState = 0 then some (env.now i) else s.nextMarkTime
      let pkt ← pkt.set .congestionMark (nonNegativeInteger 1)
      let n := s.nMarkedSinceInMarkingState + 1
      return ({ s with
        nCongestionMarked := s.nCongestionMarked + 1
        nMarkedSinceInMarkingState := n
        nextMarkTime := next.map (· + env.markingInterval n)
        lastMarkTime := some (env.now i) }, pkt)
    else .ok (s, pkt)
  else if s.nextMarkTime.isSome then
    .ok ({ s with nextMarkTime := none, nMarkedSinceInMarkingState := 0 }, pkt)
  else .ok (s, pkt)

def markLpPacket (s : Service) (env : Environment) (i : ℕ) (pkt : Packet) :
    Except Failure (Service × Packet) :=
  if s.options.allowCongestionMarking then s.checkCongestionLevel env i pkt else .ok (s, pkt)

/-- The `i`-th LpPacket of the packet is sent, unless it is over the MTU. -/
def sendLpPacket (s : Service) (mtu : Option ℕ) (env : Environment) (i : ℕ) (pkt : Packet) :
    Except Failure (Service × List WireBlock) := do
  let (s, pkt) ← s.markLpPacket env i pkt
  let (wire, _) ← pkt.wireEncode
  match mtu with
  | none => return (s, [WireBlock.ofBlock wire])
  | some mtu =>
      if mtu < wire.size then return ({ s with nOutOverMtu := s.nOutOverMtu + 1 }, [])
      else return (s, [WireBlock.ofBlock wire])

def sendLpPackets (mtu : Option ℕ) (env : Environment) : ℕ → Service → List Packet →
    Except Failure (Service × List WireBlock)
  | _, s, [] => .ok (s, [])
  | i, s, frag :: frags => do
      let (s, sent) ← s.sendLpPacket mtu env i frag
      let (s, sents) ← sendLpPackets mtu env (i + 1) s frags
      return (s, sent ++ sents)

def sendValPacket (s : Service) (mtu : Option ℕ) (env : Environment) (pkt : Packet) :
    Except Failure (Service × List WireBlock) := do
  match ← fragments s.options mtu pkt with
  | none => return ({ s with nFragmentationErrors := s.nFragmentationErrors + 1 }, [])
  | some frags => do
      checkSingle frags
      if 1 < frags.length then
        let (lastSeqNo, frags) ← assignSequences s.lastSeqNo frags
        sendLpPackets mtu env 0 { s with lastSeqNo := lastSeqNo } frags
      else sendLpPackets mtu env 0 s frags

/-- `doSendValPacket(valPacket)`, with the LpPackets that are handed to the
transport. -/
def doSendValPacket (s : Service) (env : Environment) (valPacket : ValPacket) :
    Except Failure (Service × List WireBlock) :=
  match valPacket.payload with
  | .notSet => .ok (s, [])
  | .interest _ wire tags => do
      let lpPacket ← makeLpPacket s.options valPacket.valHeader wire tags
      s.sendValPacket env.getMtu env lpPacket
  | .data _ wire tags => do
      let lpPacket ← makeLpPacket s.options valPacket.valHeader wire tags
      s.sendValPacket env.getMtu env lpPacket

end Service

/-! ### Receiving -/

namespace Packet

/-- A field that need not be there. -/
def get? {α : Type} (packet : Packet) (f : Field)
    (decode : ℕ → List UInt8 → Except Tlv.Error α) : Except Failure (Option α) :=
  if packet.has f then (packet.get f decode).map some else .ok none

/-- A field that is only read with an option. -/
def getIf? {α : Type} (allowed : Bool) (packet : Packet) (f : Field)
    (decode : ℕ → List UInt8 → Except Tlv.Error α) : Except Failure (Option α) :=
  if allowed then packet.get? f decode else .ok none

end Packet

/-- The announcement that a Data comes with, if there is one and it is read. -/
def decodeAnnouncement (codec : Codec) : Option (List UInt8) → Except Failure Unit
  | none => .ok ()
  | some value => codec.prefixAnnouncement value

/-- `CachePolicy::wireDecode`. The integer is kept in an `int`. -/
def decodeCachePolicy (type : ℕ) (value : List UInt8) : Except Tlv.Error Unit := do
  match ← (⟨type, value⟩ : Block).parse with
  | [] => throw ⟨"expecting CachePolicyType block"⟩
  | element :: _ =>
      if element.type ≠ 821 then throw ⟨"expecting CachePolicyType block"⟩
      let policy ← Tlv.readNonNegativeInteger element.value
      if policy % 2 ^ 32 ≠ 1 then throw ⟨"unknown CachePolicyType"⟩

/-- `decodeInterest(netPkt, firstPkt)`: what `nInNetInvalid` grows by, and the
Interest, unless the result is a null pointer. -/
def decodeInterest (codec : Codec) (options : Options) (netPkt : WireBlock) (firstPkt : Packet) :
    Except Failure (ℕ × Option Payload) :=
  if netPkt.type ≠ tlvInterest then .error (.assertion "netPkt.type() == tlv::Interest")
  else if firstPkt.has .nack then .error (.assertion "!firstPkt.has<lp::NackField>()")
  else do
    let interest ← (codec.interest netPkt).mapError .tlvError
    let hopCount ← firstPkt.get? .hopCountTag Packet.decodeUInt64
    if firstPkt.has .nextHopFaceId && !options.allowLocalFields then return (0, none)
    let nextHopFaceId ← firstPkt.get? .nextHopFaceId Packet.decodeNonNegativeInteger
    if firstPkt.has .cachePolicy then return (1, none)
    let congestionMark ← firstPkt.get? .congestionMark Packet.decodeNonNegativeInteger
    let nonDiscovery ← firstPkt.getIf? options.allowSelfLearning .nonDiscovery
      Packet.decodeEmptyValue
    if firstPkt.has .prefixAnnouncement then return (1, none)
    return (0, some (.interest interest netPkt { Tags.none with
      hopCount := hopCount.map (· + 1)
      nextHopFaceId := nextHopFaceId.map UInt64.ofNat
      congestionMark := congestionMark.map UInt64.ofNat
      nonDiscovery := nonDiscovery.isSome }))

/-- `decodeData(netPkt, firstPkt)`. -/
def decodeData (codec : Codec) (options : Options) (netPkt : WireBlock) (firstPkt : Packet) :
    Except Failure (ℕ × Option Payload) :=
  if netPkt.type ≠ tlvData then .error (.assertion "netPkt.type() == tlv::Data")
  else do
    let data ← (codec.data netPkt).mapError .tlvError
    let hopCount ← firstPkt.get? .hopCountTag Packet.decodeUInt64
    if firstPkt.has .nack then return (1, none)
    if firstPkt.has .nextHopFaceId then return (1, none)
    let cachePolicy ← firstPkt.get? .cachePolicy decodeCachePolicy
    let congestionMark ← firstPkt.get? .congestionMark Packet.decodeNonNegativeInteger
    if firstPkt.has .nonDiscovery then return (1, none)
    let prefixAnnouncement := if options.allowSelfLearning then
        firstPkt.find .prefixAnnouncement
      else none
    decodeAnnouncement codec prefixAnnouncement
    return (0, some (.data data netPkt { Tags.none with
      hopCount := hopCount.map (· + 1)
      cachePolicy := cachePolicy.isSome
      congestionMark := congestionMark.map UInt64.ofNat
      prefixAnnouncement := prefixAnnouncement }))

/-- The switch on the type of the network packet. -/
def decodeNetPkt (codec : Codec) (options : Options) (netPkt : WireBlock) (firstPkt : Packet) :
    Except Failure (ℕ × Option Payload) :=
  if netPkt.type = tlvInterest then decodeInterest codec options netPkt firstPkt
  else if netPkt.type = tlvData then decodeData codec options netPkt firstPkt
  else .ok (0, none)

namespace Service

/-- The network packet is decoded, and handed on with its header. -/
def handOn (codec : Codec) (s : Service) (netPkt : WireBlock) (firstPkt : Packet)
    (valH : ValHeader) : Except Failure (Service × Option ValPacket) := do
  let (invalid, payload) ← decodeNetPkt codec s.options netPkt firstPkt
  return ({ s with
    nInNetInvalid := s.nInNetInvalid + invalid
    nInValPkt := s.nInValPkt + 1 }, some ⟨valH, payload.getD .notSet⟩)

/-- A network packet is complete: its header is looked for in the first packet,
and both are decoded. -/
def receiveNetPkt (codec : Codec) (s : Service) (netPkt : WireBlock) (firstPkt : Packet) :
    Except Failure (Service × Option ValPacket) := do
  let (_, elements) ← firstPkt.wireEncode
  match elements.find? fun e => e.type = Field.valHeader.tlvType with
  | none => return (s, none)
  | some block => do
      let valH ← (ValHeader.wireDecode ⟨[], [], [], [], codec.uninitialized⟩ block).mapError
        .tlvError
      s.handOn codec netPkt firstPkt valH

/-- What follows the call of the reassembler: a network packet is processed if
one is complete. -/
def processReassembled (codec : Codec) (s : Service)
    (result : Reassembler × Except Failure (Option (WireBlock × Packet))) :
    Service × Except Failure (Service × Option ValPacket) :=
  let s := { s with reassembler := result.1 }
  match result.2 with
  | .error failure => (s, .error failure)
  | .ok none => (s, .ok (s, none))
  | .ok (some (netPkt, firstPkt)) => (s, s.receiveNetPkt codec netPkt firstPkt)

/-- The `try` block of `doReceivePacket`. -/
def tryReceivePacket (codec : Codec) (s : Service) (remoteEndpoint : UInt64) (packet : WireBlock) :
    Service × Except Failure (Service × Option ValPacket) :=
  match Packet.wireDecode packet with
  | .error error => (s, .error (.tlvError error))
  | .ok pkt =>
      if !pkt.has .fragment then (s, .ok (s, none))
      else if (pkt.has .fragIndex || pkt.has .fragCount) && !s.options.allowReassembly then
        (s, .ok (s, none))
      else s.processReassembled codec (s.reassembler.receiveFragment remoteEndpoint pkt)

/-- `doReceivePacket(packet)`, with the packet that is handed on. -/
def doReceivePacket (codec : Codec) (s : Service) (remoteEndpoint : UInt64) (packet : WireBlock) :
    Except Failure (Service × Option ValPacket) :=
  match s.tryReceivePacket codec remoteEndpoint packet with
  | (_, .ok result) => .ok result
  | (s, .error (.tlvError _)) => .ok ({ s with nInLpInvalid := s.nInLpInvalid + 1 }, none)
  | (_, .error failure) => .error failure

end Service

end ValProofs.Link
