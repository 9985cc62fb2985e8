import ValProofs.Link.Outgoing

/-!
What a link service makes of a packet that another one sent.

The packet that has the headers yields the header and the network packet of the
VAL packet that was sent: its own fields are decoded again, and none of those
for which the decoders return a null pointer is among them.
-/

namespace ValProofs.Link

open Lib Reassembler

/-- The packet that is handed on has the header and the network packet of the
one that was sent. -/
def Delivers (sent delivered : ValPacket) : Prop :=
  delivered.valHeader = sent.valHeader ∧ delivered.payload.octets = sent.payload.octets

instance (sent delivered : ValPacket) : Decidable (Delivers sent delivered) :=
  inferInstanceAs (Decidable (_ ∧ _))

/-! ### The header -/

namespace Packet

variable {packet : Packet} {f : Field}

theorem find?_of_find {value : List UInt8} (h : packet.find f = some value) :
    packet.elements.find? (fun e => e.type = f.tlvType) = some ⟨f.tlvType, value⟩ := by
  obtain ⟨e, he, rfl⟩ := Option.map_eq_some_iff.mp h
  have htype : e.type = f.tlvType := by simpa using List.find?_some he
  rw [he, ← htype]

theorem get?_of_find_none {α : Type} (h : packet.find f = none)
    (decode : ℕ → List UInt8 → Except Tlv.Error α) : packet.get? f decode = .ok none := by
  rw [get?, has_eq_false h]
  rfl

theorem get?_of_find {α : Type} {value : List UInt8} {a : α}
    {decode : ℕ → List UInt8 → Except Tlv.Error α} (h : packet.find f = some value)
    (hdecode : decode f.tlvType value = .ok a) : packet.get? f decode = .ok (some a) := by
  rw [get?, if_pos (has_of_find h), get_of_find h hdecode]
  rfl

end Packet

open Packet

theorem ValHeader.length_member_le (header : ValHeader) (f : SubElement) :
    (header.member f).length ≤ header.wireEncode.value.length := by
  have hmem : ∀ e ∈ (Packet.mk header.elements).elements,
      e.value.length ≤ header.wireEncode.value.length := by
    intro e he
    exact (Packet.length_value_le he).trans_eq (Packet.length_value_block _).symm
  cases f with
  | sa => exact hmem ⟨SubElement.sa.tlvType, header.sa⟩ (by simp [elements])
  | da => exact hmem ⟨SubElement.da.tlvType, header.da⟩ (by simp [elements])
  | phPos => exact hmem ⟨SubElement.phPos.tlvType, header.phPos⟩ (by simp [elements])
  | rn => exact hmem ⟨SubElement.rn.tlvType, header.rn⟩ (by simp [elements])
  | hopC =>
    refine le_trans ?_ (hmem ⟨SubElement.hopC.tlvType, nonNegativeInteger header.hopC.toNat⟩
      (by simp [elements]))
    have := length_nonNegativeInteger header.hopC.toNat
    simp only [member, List.length_singleton]
    omega

/-! ### The network packet -/

section Decode

variable {codec : Codec} {valHeader : ValHeader} {wire : WireBlock} {tags : Tags} {pkt : Packet}

theorem Heads.get?_congestionMark {fields : Field → Option (List UInt8)} (h : Heads fields pkt) :
    ∃ mark, pkt.get? .congestionMark decodeNonNegativeInteger = .ok mark := by
  cases hfind : pkt.find .congestionMark with
  | none => exact ⟨none, get?_of_find_none hfind _⟩
  | some value =>
    obtain ⟨mark, rfl⟩ := h.congestionMark value hfind
    exact ⟨some mark.toNat, get?_of_find hfind
      (Tlv.readNonNegativeInteger_nonNegativeInteger mark.toNat_lt)⟩

/-- A field that the LpPacket of the VAL packet does not have. -/
theorem Heads.has_eq_false {fields : Field → Option (List UInt8)} (h : Heads fields pkt) (f : Field)
    (hf : f ∉ linkFields) (hfield : fields f = none) : pkt.has f = false :=
  Packet.has_eq_false ((h.find f hf).trans hfield)

section

variable (h : Heads (lpFields .stackHelper valHeader wire.octets tags) pkt)

include h

theorem Heads.get?_hopCountTag :
    pkt.get? .hopCountTag decodeUInt64 = .ok (some (tags.hopCount.getD 0)) :=
  get?_of_find (h.find .hopCountTag (by decide)) (decodeUInt64_encodeUInt64 ..)

theorem Heads.get?_nonDiscovery :
    ∃ nonDiscovery, pkt.getIf? Options.stackHelper.allowSelfLearning .nonDiscovery
      decodeEmptyValue = .ok nonDiscovery := by
  have hfind := h.find .nonDiscovery (by decide)
  cases htag : tags.nonDiscovery with
  | false =>
    have hnone : lpFields .stackHelper valHeader wire.octets tags .nonDiscovery = none := by
      simp [lpFields, htag]
    exact ⟨none, get?_of_find_none (hfind.trans hnone) _⟩
  | true =>
    have hsome : lpFields .stackHelper valHeader wire.octets tags .nonDiscovery = some [] := by
      simp [lpFields, htag, Options.stackHelper]
    exact ⟨some (), get?_of_find (hfind.trans hsome) rfl⟩

theorem decodeInterest_ok {interest : Interest} (htype : wire.type = tlvInterest)
    (hinterest : codec.interest wire = .ok interest) (htag : tags.prefixAnnouncement = none) :
    ∃ tags', decodeInterest codec .stackHelper wire pkt =
      .ok (0, some (.interest interest wire tags')) := by
  obtain ⟨mark, hmark⟩ := h.get?_congestionMark
  obtain ⟨nonDiscovery, hnonDiscovery⟩ := h.get?_nonDiscovery
  have hnextHop := get?_of_find_none (h.find .nextHopFaceId (by decide))
    decodeNonNegativeInteger
  rw [decodeInterest, if_neg (not_not.mpr htype), h.has_eq_false .nack (by decide) rfl]
  simp only [Bool.false_eq_true, if_false, hinterest, Except.mapError, h.get?_hopCountTag,
    h.has_eq_false .nextHopFaceId (by decide) rfl, hnextHop,
    h.has_eq_false .cachePolicy (by decide) rfl, hmark, hnonDiscovery,
    h.has_eq_false .prefixAnnouncement (by decide) htag, Bool.false_and, bind, Except.bind]
  exact ⟨_, rfl⟩

theorem decodeData_ok {data : Data} (htype : wire.type = tlvData)
    (hdata : codec.data wire = .ok data) (htag : tags.nonDiscovery = false)
    (hannouncement : ∀ value ∈ tags.prefixAnnouncement, codec.prefixAnnouncement value = .ok ()) :
    ∃ tags', decodeData codec .stackHelper wire pkt = .ok (0, some (.data data wire tags')) := by
  obtain ⟨mark, hmark⟩ := h.get?_congestionMark
  have hcachePolicy := get?_of_find_none (h.find .cachePolicy (by decide))
    decodeCachePolicy
  have hnonDiscovery : lpFields .stackHelper valHeader wire.octets tags .nonDiscovery = none := by
    simp [lpFields, htag]
  have hfind : pkt.find .prefixAnnouncement = tags.prefixAnnouncement :=
    h.find .prefixAnnouncement (by decide)
  rw [decodeData, if_neg (not_not.mpr htype)]
  simp only [Bool.false_eq_true, if_false, hdata, Except.mapError, h.get?_hopCountTag,
    h.has_eq_false .nack (by decide) rfl, h.has_eq_false .nextHopFaceId (by decide) rfl,
    hcachePolicy, hmark, h.has_eq_false .nonDiscovery (by decide) hnonDiscovery, hfind, bind,
    Except.bind]
  cases htags : tags.prefixAnnouncement with
  | none => exact ⟨_, rfl⟩
  | some value =>
    simp only [Options.stackHelper, decodeAnnouncement, hannouncement value htags, if_true]
    exact ⟨_, rfl⟩

end

theorem decodeNetPkt_ok {payload : Payload} (htakes : codec.Takes payload)
    (hwire : payload.wire = some wire)
    (h : Heads (lpFields .stackHelper valHeader wire.octets payload.tags) pkt) :
    ∃ payload', decodeNetPkt codec .stackHelper wire pkt = .ok (0, some payload') ∧
      payload'.wire = some wire := by
  cases payload with
  | notSet => cases hwire
  | interest interest wire' tags =>
    cases hwire
    obtain ⟨htype, -, hinterest, htag⟩ := htakes
    obtain ⟨tags', hok⟩ := decodeInterest_ok h htype hinterest htag
    exact ⟨_, (if_pos htype).trans hok, rfl⟩
  | data data wire' tags =>
    cases hwire
    obtain ⟨htype, -, hdata, htag, hannouncement⟩ := htakes
    obtain ⟨tags', hok⟩ := decodeData_ok h htype hdata htag hannouncement
    have hne : wire.type ≠ tlvInterest := by
      rw [htype]
      decide
    exact ⟨_, (if_neg hne).trans ((if_pos htype).trans hok), rfl⟩

/-- **The packet with the headers yields the VAL packet that was sent.** -/
theorem receiveNetPkt_ok {v : Sendable codec} {s : Service} (hoptions : s.options = .stackHelper)
    (hwire : v.packet.payload.wire = some wire) (hsmall : pkt.bodySize < 2 ^ 64)
    (h : Heads (lpFields .stackHelper v.packet.valHeader wire.octets v.packet.payload.tags) pkt) :
    ∃ s' delivered, s.receiveNetPkt codec wire pkt = .ok (s', some delivered) ∧
      Delivers v.packet delivered ∧ s'.options = s.options ∧ s'.reassembler = s.reassembler := by
  have hheader := h.find .valHeader (by decide)
  have hencode := wireEncode_of_find (by decide) hheader
  have hfind := find?_of_find hheader
  have hvalue : v.packet.valHeader.wireEncode.value.length < 2 ^ 64 :=
    (Packet.length_value_le (List.mem_of_find?_eq_some hfind)).trans_lt hsmall
  have hdecode := ValHeader.wireDecode_wireEncode
    (fun f => (v.packet.valHeader.length_member_le f).trans_lt hvalue)
    ⟨[], [], [], [], codec.uninitialized⟩
  have hblock : (⟨Field.valHeader.tlvType, v.packet.valHeader.wireEncode.value⟩ : Block) =
      v.packet.valHeader.wireEncode := rfl
  obtain ⟨payload, hpayload, hwire'⟩ := decodeNetPkt_ok v.takes hwire h
  simp only [Service.receiveNetPkt, Service.handOn, hencode, hfind, hblock, hdecode, hoptions,
    hpayload, Except.mapError, bind, Except.bind]
  refine ⟨_, _, rfl, ⟨rfl, ?_⟩, rfl, rfl⟩
  rw [Option.getD_some, Payload.octets, Payload.octets, hwire, hwire']

end Decode

/-! ### Receiving a frame -/

section Receive

variable {codec : Codec} {s : Service} {pkt : Packet} {wire : WireBlock}

/-- A frame that can be decoded again goes to the reassembler. -/
theorem tryReceivePacket_frame (hoptions : s.options = .stackHelper) (hsound : Sound pkt)
    (hfragment : pkt.has .fragment) (remoteEndpoint : UInt64) :
    s.tryReceivePacket codec remoteEndpoint (frame pkt) =
      s.processReassembled codec (s.reassembler.receiveFragment remoteEndpoint pkt) := by
  have hdecode : wireDecode (frame pkt) = .ok pkt := wireDecode_block hsound.wellFormed hsound.small
  have hreassembly : s.options.allowReassembly = true := by
    rw [hoptions]
    rfl
  simp only [Service.tryReceivePacket, hdecode, hfragment, hreassembly, Bool.not_true,
    Bool.and_false, Bool.false_eq_true, if_false]

/-- A packet that is not fragmented is complete at once. -/
theorem receiveFragment_single {r : Reassembler} (hmax : 1 ≤ r.nMaxFragments)
    (hfragment : pkt.find .fragment = some wire.octets) (hindex : pkt.find .fragIndex = none)
    (hcount : pkt.find .fragCount = none) (hread : readBlock wire.octets = .ok wire)
    (remoteEndpoint : UInt64) :
    r.receiveFragment remoteEndpoint pkt = (r, .ok (some (wire, pkt))) := by
  have hread' : readIndexAndCount pkt = .ok (0, 1) := by
    simp only [readIndexAndCount, readOr, Packet.has_eq_false hindex, Packet.has_eq_false hcount]
    rfl
  have hget : pkt.getFragment = .ok wire.octets :=
    get_of_find hfragment (decodeRange_of_ne (ne_nil_of_readBlock hread))
  have hsingle : receiveSingle pkt = .ok (some (wire, pkt)) := by
    simp only [receiveSingle, hget, hread, Except.mapError, bind, Except.bind]
    rfl
  simp only [receiveFragment, dif_pos (has_of_find hfragment), hread', hsingle]
  rw [if_neg (by decide), if_neg (by omega), if_pos (by decide)]

end Receive

end ValProofs.Link
