import ValProofs.Link.Service

/-!
What a link service sends for a VAL packet.

Either one LpPacket, or the fragments of a message, and in both cases the packet
that has the headers carries what the receiver needs to make the VAL packet
again. The queue and the clock decide which of the packets get a congestion
mark; whatever they decide, every packet stays below the MTU.
-/

namespace ValProofs.Link

open Lib Packet Service List Function

/-! ### The LpPacket of a VAL packet -/

/-- A well-formed packet whose fields are the given ones. -/
structure Packet.HasFields (packet : Packet) (fields : Field → Option (List UInt8)) : Prop where
  wellFormed : packet.WellFormed
  find : packet.find = fields

namespace Packet.HasFields

variable {packet : Packet} {fields : Field → Option (List UInt8)} {f : Field}

theorem add (h : packet.HasFields fields) (hf : fields f = none) (value : List UInt8) :
    ∃ packet', packet.add f value = .ok packet' ∧
      packet'.HasFields (update fields f (some value)) := by
  have hnone : packet.find f = none := by rw [h.find, hf]
  refine ⟨_, add_of_find hnone value, h.wellFormed.insert hnone value, funext fun g => ?_⟩
  by_cases hg : g = f
  · rw [hg, update_self, find_insert_self hnone]
  · rw [update_of_ne hg, find_insert_of_ne hg, h.find]

theorem addOpt (h : packet.HasFields fields) (hf : fields f = none) (value : Option (List UInt8)) :
    ∃ packet', packet.addOpt f value = .ok packet' ∧
      packet'.HasFields (update fields f value) := by
  cases value with
  | none =>
    refine ⟨packet, rfl, h.wellFormed, ?_⟩
    rw [h.find, ← hf, update_eq_self]
  | some value => exact h.add hf value

end Packet.HasFields

/-- The fields of the LpPacket of a VAL packet. -/
def lpFields (options : Options) (valHeader : ValHeader) (octets : List UInt8) (tags : Tags) :
    Field → Option (List UInt8)
  | .fragment => some octets
  | .hopCountTag => some (Packet.encodeUInt64 (tags.hopCount.getD 0))
  | .incomingFaceId =>
      if options.allowLocalFields then
        tags.incomingFaceId.map fun id => nonNegativeInteger id.toNat
      else none
  | .congestionMark => tags.congestionMark.map fun mark => nonNegativeInteger mark.toNat
  | .nonDiscovery => if options.allowSelfLearning && tags.nonDiscovery then some [] else none
  | .prefixAnnouncement => if options.allowSelfLearning then tags.prefixAnnouncement else none
  | .valHeader => some valHeader.wireEncode.value
  | _ => none

theorem makeLpPacket_ok (options : Options) (valHeader : ValHeader) {wire : WireBlock} (tags : Tags)
    (hwire : wire.type = tlvInterest ∨ wire.type = tlvData) :
    ∃ packet, makeLpPacket options valHeader wire tags = .ok packet ∧
      packet.HasFields (lpFields options valHeader wire.octets tags) := by
  have hdecode : wireDecode wire = .ok ⟨[⟨Field.fragment.tlvType, wire.octets⟩]⟩ := if_pos hwire
  have h₀ : HasFields ⟨[⟨Field.fragment.tlvType, wire.octets⟩]⟩
      (update (fun _ => none) .fragment (some wire.octets)) := by
    refine ⟨wellFormed_fragment _, funext fun f => ?_⟩
    cases f <;> rfl
  obtain ⟨p₁, heq₁, h₁⟩ := h₀.addOpt (f := .incomingFaceId) rfl
    (if options.allowLocalFields then
      tags.incomingFaceId.map fun id => nonNegativeInteger id.toNat
    else none)
  obtain ⟨p₂, heq₂, h₂⟩ := h₁.addOpt (f := .congestionMark) rfl
    (tags.congestionMark.map fun mark => nonNegativeInteger mark.toNat)
  obtain ⟨p₃, heq₃, h₃⟩ := h₂.addOpt (f := .nonDiscovery) rfl
    (if options.allowSelfLearning && tags.nonDiscovery then some [] else none)
  obtain ⟨p₄, heq₄, h₄⟩ := h₃.addOpt (f := .prefixAnnouncement) rfl
    (if options.allowSelfLearning then tags.prefixAnnouncement else none)
  obtain ⟨p₅, heq₅, h₅⟩ := h₄.add (f := .hopCountTag) rfl
    (encodeUInt64 (tags.hopCount.getD 0))
  obtain ⟨p₆, heq₆, h₆⟩ := h₅.add (f := .valHeader) rfl valHeader.wireEncode.value
  refine ⟨p₆, ?_, h₆.wellFormed, ?_⟩
  · simp only [makeLpPacket, encodeLpFields, hdecode, Except.mapError, bind, Except.bind, heq₁,
      heq₂, heq₃, heq₄, heq₅, heq₆]
  · rw [h₆.find]
    funext f
    cases f <;> rfl

/-! ### Marks and sequence numbers -/

/-- The packet may have got a congestion mark. -/
def Marked (pkt pkt' : Packet) : Prop :=
  pkt' = pkt ∨ pkt' = pkt.put .congestionMark (nonNegativeInteger 1)

namespace Marked

variable {pkt pkt' : Packet}

theorem find (h : Marked pkt pkt') {f : Field} (hf : f ≠ .congestionMark) :
    pkt'.find f = pkt.find f := by
  obtain rfl | rfl := h
  · rfl
  · rw [find_put_of_ne hf]

theorem wellFormed (h : Marked pkt pkt') (hpkt : pkt.WellFormed) : pkt'.WellFormed := by
  obtain rfl | rfl := h
  · exact hpkt
  · exact hpkt.put ..

theorem bodySize_le (h : Marked pkt pkt') : pkt'.bodySize ≤ pkt.bodySize + 5 := by
  obtain rfl | rfl := h
  · omega
  · have hbound := pkt.bodySize_put_le .congestionMark (nonNegativeInteger 1)
    have hsize : Block.size ⟨Field.congestionMark.tlvType, nonNegativeInteger 1⟩ = 5 := by
      decide
    omega

end Marked

/-- Sending leaves the options, and packets within the MTU leave the counter of
those over it, as they are. -/
def SameLink (s s' : Service) : Prop :=
  s'.options = s.options ∧ s'.nOutOverMtu = s.nOutOverMtu

theorem SameLink.refl (s : Service) : SameLink s s := ⟨rfl, rfl⟩

theorem SameLink.trans {s s' s'' : Service} (h : SameLink s s') (h' : SameLink s' s'') :
    SameLink s s'' :=
  ⟨h'.1.trans h.1, h'.2.trans h.2⟩

theorem checkCongestionLevel_ok (s : Service) (env : Environment) (i : ℕ) (pkt : Packet) :
    ∃ s' pkt', s.checkCongestionLevel env i pkt = .ok (s', pkt') ∧ Marked pkt pkt' ∧
      SameLink s s' := by
  unfold checkCongestionLevel
  by_cases hlength : env.sendQueueLength i < 0
  · exact ⟨s, pkt, if_pos hlength, .inl rfl, .refl s⟩
  rw [if_neg hlength]
  by_cases hcongested : s.congestionThreshold env < (env.sendQueueLength i).toNat
  · rw [if_pos hcongested]
    by_cases htime : s.isTimeToMark env i
    · rw [if_pos htime]
      simp only [set_eq, bind, Except.bind]
      exact ⟨_, _, rfl, .inr rfl, rfl, rfl⟩
    · exact ⟨s, pkt, if_neg htime, .inl rfl, .refl s⟩
  · rw [if_neg hcongested]
    by_cases hnext : s.nextMarkTime.isSome
    · exact ⟨_, pkt, if_pos hnext, .inl rfl, rfl, rfl⟩
    · exact ⟨s, pkt, if_neg hnext, .inl rfl, .refl s⟩

theorem markLpPacket_ok (s : Service) (env : Environment) (i : ℕ) (pkt : Packet) :
    ∃ s' pkt', s.markLpPacket env i pkt = .ok (s', pkt') ∧ Marked pkt pkt' ∧ SameLink s s' := by
  unfold markLpPacket
  split_ifs
  · exact checkCongestionLevel_ok s env i pkt
  · exact ⟨s, pkt, rfl, .inl rfl, .refl s⟩

/-- The packet is below the MTU even if it gets a mark. -/
def Within (mtu : Option ℕ) (pkt : Packet) : Prop := ∀ m ∈ mtu, pkt.bodySize + 15 ≤ m

/-- A packet that can be sent: it is within the MTU, and has a header that a
mark does not replace. -/
structure Ready (mtu : Option ℕ) (pkt : Packet) : Prop where
  within : Within mtu pkt
  header : ∃ f value, f ≠ .fragment ∧ f ≠ .congestionMark ∧ pkt.find f = some value

/-- The frame in which the packet is handed to the transport. -/
def frame (pkt : Packet) : WireBlock := WireBlock.ofBlock pkt.block

theorem Ready.size_le {mtu : Option ℕ} {pkt pkt' : Packet} (hready : Ready mtu pkt)
    (hmarked : Marked pkt pkt') : ∀ m ∈ mtu, pkt'.block.size ≤ m := by
  intro m hm
  have hsize := hready.within m hm
  have hblock := size_block_le pkt'
  have hbody := hmarked.bodySize_le
  omega

theorem sendLpPacket_ok (s : Service) {mtu : Option ℕ} (env : Environment) (i : ℕ) {pkt : Packet}
    (hready : Ready mtu pkt) :
    ∃ s' pkt', s.sendLpPacket mtu env i pkt = .ok (s', [frame pkt']) ∧
      Marked pkt pkt' ∧ SameLink s s' := by
  obtain ⟨f, value, hf, hmark, hfind⟩ := hready.header
  obtain ⟨s', pkt', hok, hmarked, hsame⟩ := markLpPacket_ok s env i pkt
  have hencode := wireEncode_of_find hf ((hmarked.find hmark).trans hfind)
  refine ⟨s', pkt', ?_, hmarked, hsame⟩
  simp only [sendLpPacket, hok, hencode, bind, Except.bind]
  cases hmtu : mtu with
  | none => rfl
  | some m => exact if_neg (Nat.not_lt.mpr (hready.size_le hmarked m hmtu))

theorem sendLpPackets_ok {mtu : Option ℕ} (env : Environment) {pkts : List Packet}
    (hready : ∀ pkt ∈ pkts, Ready mtu pkt) (i : ℕ) (s : Service) :
    ∃ s' pkts', sendLpPackets mtu env i s pkts = .ok (s', pkts'.map frame) ∧
      Forall₂ Marked pkts pkts' ∧ SameLink s s' := by
  induction pkts generalizing i s with
  | nil => exact ⟨s, [], rfl, .nil, .refl s⟩
  | cons pkt pkts ih =>
    obtain ⟨hfirst, hrest⟩ := forall_mem_cons.mp hready
    obtain ⟨s₁, pkt', hok, hmarked, hsame⟩ := sendLpPacket_ok s env i hfirst
    obtain ⟨s₂, pkts', hoks, hmarkeds, hsames⟩ := ih hrest (i + 1) s₁
    refine ⟨s₂, pkt' :: pkts', ?_, .cons hmarked hmarkeds, hsame.trans hsames⟩
    simp only [sendLpPackets, hok, hoks, bind, Except.bind]
    rfl

/-- The packet with the sequence number. -/
def numbered (pkt : Packet) (sequence : UInt64) : Packet :=
  pkt.put .sequence (Packet.encodeUInt64 sequence)

theorem add_one_add_ofNat (a : UInt64) (n : ℕ) :
    a + 1 + UInt64.ofNat n = a + UInt64.ofNat (n + 1) := by
  rw [UInt64.ofNat_add, UInt64.add_assoc, UInt64.add_comm 1]
  rfl

/-- The fragments get consecutive sequence numbers. -/
theorem assignSequences_ok (lastSeqNo : UInt64) (pkts : List Packet) :
    assignSequences lastSeqNo pkts =
      .ok (lastSeqNo + UInt64.ofNat pkts.length,
        pkts.mapIdx fun i pkt => numbered pkt (lastSeqNo + 1 + UInt64.ofNat i)) := by
  induction pkts generalizing lastSeqNo with
  | nil => simp [assignSequences]
  | cons pkt pkts ih =>
    simp only [assignSequences, set_eq, ih, bind, Except.bind, mapIdx_cons,
      length_cons, add_one_add_ofNat]
    rfl

theorem bodySize_numbered_le (pkt : Packet) (sequence : UInt64) :
    (numbered pkt sequence).bodySize ≤ pkt.bodySize + 10 := by
  have hbound := pkt.bodySize_put_le .sequence (encodeUInt64 sequence)
  have hsize : Block.size ⟨Field.sequence.tlvType, encodeUInt64 sequence⟩ = 10 := by
    rw [Block.size_mk, encodeUInt64, length_bigEndian]
    rfl
  rw [numbered]
  omega

/-! ### The packets that are sent -/

/-- The fields that the link service itself puts on the packets it sends, or
replaces. -/
def linkFields : List Field := [.sequence, .fragIndex, .fragCount, .congestionMark, .fragment]

/-- The packet has the headers of the VAL packet, up to its congestion mark. -/
structure Heads (fields : Field → Option (List UInt8)) (pkt : Packet) : Prop where
  find : ∀ f, f ∉ linkFields → pkt.find f = fields f
  congestionMark : ∀ value, pkt.find .congestionMark = some value →
    ∃ mark : UInt64, value = nonNegativeInteger mark.toNat

namespace Heads

variable {fields : Field → Option (List UInt8)} {pkt pkt' : Packet}

theorem marked (h : Heads fields pkt) (hmarked : Marked pkt pkt') : Heads fields pkt' where
  find := by
    intro f hf
    have hne : f ≠ .congestionMark := fun hmark => hf (hmark ▸ by decide)
    rw [hmarked.find hne, h.find f hf]
  congestionMark := by
    obtain rfl | rfl := hmarked
    · exact h.congestionMark
    · intro value hvalue
      rw [find_put_self] at hvalue
      exact ⟨1, (Option.some.inj hvalue).symm⟩

theorem numbered (h : Heads fields pkt) (sequence : UInt64) :
    Heads fields (numbered pkt sequence) where
  find := by
    intro f hf
    have hne : f ≠ .sequence := fun hseq => hf (hseq ▸ by decide)
    rw [Link.numbered, find_put_of_ne hne, h.find f hf]
  congestionMark := by
    rw [Link.numbered, find_put_of_ne (by decide)]
    exact h.congestionMark

theorem fragmentOf (h : Heads fields pkt) (fragCount : ℕ) (payload : List UInt8) :
    Heads fields (fragmentOf pkt 0 fragCount payload) where
  find := by
    intro f hf
    have hne : ∀ g ∈ linkFields, f ≠ g := fun g hg hfg => hf (hfg ▸ hg)
    rw [find_fragmentOf_zero (hne _ (by decide)) (hne _ (by decide)) (hne _ (by decide)),
      h.find f hf]
  congestionMark := by
    rw [find_fragmentOf_zero (by decide) (by decide) (by decide)]
    exact h.congestionMark

end Heads

/-- The packets that are sent for an LpPacket with the fields and the network
packet: one that carries all of it, or the fragments of a message. -/
inductive Emitted (fields : Field → Option (List UInt8)) (octets : List UInt8) (id : UInt64)
    (nMaxFragments : ℕ) : List Packet → Prop
  | single (pkt : Packet) (heads : Heads fields pkt) (fragment : pkt.find .fragment = some octets)
      (noIndex : pkt.find .fragIndex = none) (noCount : pkt.find .fragCount = none) :
      Emitted fields octets id nMaxFragments [pkt]
  | message (m : Message) (heads : Heads fields (m.packet 0)) (flatten : m.chunks.flatten = octets)
      (id_eq : m.id = id) (max : m.fragCount ≤ nMaxFragments) :
      Emitted fields octets id nMaxFragments ((List.range m.fragCount).map m.packet)

/-- A packet that can be decoded again. -/
structure Sound (pkt : Packet) : Prop where
  wellFormed : pkt.WellFormed
  small : pkt.bodySize < 2 ^ 64

section Send

variable {lpPacket : Packet} {fields : Field → Option (List UInt8)} {octets : List UInt8}
  {chunks : List (List UInt8)}

theorem Split.length_chunk_le {mtu : ℕ} (hsplit : Split lpPacket octets mtu chunks)
    (hwhole : Whole lpPacket octets) : ∀ c ∈ chunks, c.length ≤ mtu := by
  intro c hc
  obtain ⟨i, hi, rfl⟩ := getElem_of_mem hc
  have hbody := bodySize_eq_of_filter (filter_eq_of_find
    (wellFormed_fragmentOf hwhole i chunks.length chunks[i]) (find_fragmentOf_fragment ..))
  have hfits := hsplit.fits i hi
  rw [hbody, Block.size_mk] at hfits
  omega

theorem sum_length_le {bound : ℕ} (h : ∀ c ∈ chunks, c.length ≤ bound) :
    (chunks.map length).sum ≤ chunks.length * bound := by
  have hsum := sum_le_card_nsmul (chunks.map length) bound
    (forall_mem_map.mpr h)
  rw [length_map] at hsum
  exact hsum

/-- The fragments of a packet, numbered and perhaps marked, are those of a
message. -/
theorem exists_message {mtu : ℕ} {first : UInt64} {pkts : List Packet}
    (hwhole : Whole lpPacket octets) (hsplit : Split lpPacket octets mtu chunks)
    (hshort : chunks.length * mtu < 2 ^ 32) (hlength : pkts.length = chunks.length)
    (hpkts : ∀ i (hi : i < chunks.length) (hi' : i < pkts.length),
      Marked (numbered (fragmentOf lpPacket i chunks.length chunks[i]) (first + UInt64.ofNat i))
        pkts[i]) :
    ∃ m : Message, m.chunks = chunks ∧ m.id = first ∧
      (range m.fragCount).map m.packet = pkts := by
  have hfind : ∀ i (hi : i < chunks.length) {f : Field}, f ≠ .congestionMark →
      (pkts.getD i empty).find f = (numbered (fragmentOf lpPacket i chunks.length chunks[i])
        (first + UInt64.ofNat i)).find f := by
    intro i hi f hf
    have hi' : i < pkts.length := hlength ▸ hi
    rw [getD_eq_getElem _ _ hi', (hpkts i hi hi').find hf]
  refine ⟨{
    id := first
    chunks := chunks
    packet := fun i => pkts.getD i empty
    two_le := hsplit.two_le
    short := (sum_length_le (hsplit.length_chunk_le hwhole)).trans_lt hshort
    index := fun i hi => ?_
    count := fun i hi => ?_
    sequence := fun i hi => ?_
    fragment := fun i hi => ?_
    nonempty := hsplit.nonempty }, rfl, rfl, ?_⟩
  · rw [hfind i hi (by decide), numbered, find_put_of_ne (by decide),
      find_fragmentOf_index hwhole.carries]
  · rw [hfind i hi (by decide), numbered, find_put_of_ne (by decide),
      find_fragmentOf_count hwhole.carries]
  · rw [hfind i hi (by decide), numbered, find_put_self]
  · rw [hfind i hi (by decide), numbered, find_put_of_ne (by decide), find_fragmentOf_fragment]
  · refine ext_getElem (by simp [Message.fragCount, hlength]) fun i hi hi' => ?_
    rw [getElem_map, getElem_range]
    exact getD_eq_getElem _ _ hi'

/-- What goes out if the fragmentation succeeds: the LpPacket, which is then
below the MTU, or its fragments. -/
theorem fragments_cases {mtu : Option ℕ} {frags : List Packet} (hwhole : Whole lpPacket octets)
    (hfrags : fragments .stackHelper mtu lpPacket = .ok (some frags)) :
    (frags = [lpPacket] ∧ ∀ m ∈ mtu, lpPacket.bodySize + 42 ≤ m) ∨
    ∃ m chunks, mtu = some m ∧ Split lpPacket octets (m - 12) chunks ∧
      chunks.length ≤ 400 ∧
      frags = chunks.mapIdx fun i c => fragmentOf lpPacket i chunks.length c := by
  cases mtu with
  | none =>
    obtain rfl : frags = [lpPacket] := by cases hfrags; rfl
    exact .inl ⟨rfl, fun m hm => by cases hm⟩
  | some m =>
    have hreserved : congestionMarkSize = 12 := rfl
    by_cases hroom : m ≤ congestionMarkSize
    · rw [fragments] at hfrags
      cases (if_pos hroom).symm.trans hfrags
    have hfragment : fragmentPacket {} lpPacket (m - congestionMarkSize) =
        .ok (some frags) := by
      rw [fragments] at hfrags
      exact (if_neg hroom).symm.trans hfrags
    obtain hfails | ⟨hwhole', hsize⟩ | ⟨chunks, hsplit, hmax, hchunks⟩ :=
      fragmentPacket_cases hwhole.carries {} (m - congestionMarkSize)
    · cases hfails.symm.trans hfragment
    · obtain rfl : frags = [lpPacket] := by
        cases hwhole'.symm.trans hfragment
        rfl
      refine .inl ⟨rfl, fun m' hm' => ?_⟩
      cases hm'
      omega
    · refine .inr ⟨m, chunks, rfl, hsplit, hmax, ?_⟩
      cases hchunks.symm.trans hfragment
      rfl

theorem Environment.getMtu_lt {env : Environment} {m : ℕ} (h : env.getMtu = some m) :
    m < 2 ^ 16 := by
  obtain ⟨mtu, -, rfl⟩ := Option.map_eq_some_iff.mp h
  exact mtu.toNat_lt

/-- A packet that is not fragmented is sent as it is, up to a mark. -/
theorem sendValPacket_single {s : Service} {env : Environment} {value : List UInt8}
    (hwhole : Whole lpPacket octets) (hheads : Heads fields lpPacket)
    (hheader : lpPacket.find .valHeader = some value)
    (hfrags : fragments s.options env.getMtu lpPacket = .ok (some [lpPacket]))
    (hsize : ∀ m ∈ env.getMtu, lpPacket.bodySize + 42 ≤ m)
    (hmemory : env.getMtu = none → lpPacket.bodySize + 5 < 2 ^ 64) (nMaxFragments : ℕ) :
    ∃ s' pkts, s.sendValPacket env.getMtu env lpPacket = .ok (s', pkts.map frame) ∧
      Emitted fields octets (s.lastSeqNo + 1) nMaxFragments pkts ∧ (∀ pkt ∈ pkts, Sound pkt) ∧
      s'.options = s.options := by
  have hready : ∀ pkt ∈ [lpPacket], Ready env.getMtu pkt := by
    refine forall_mem_singleton.mpr ⟨fun m hm => ?_, _, _, by decide, by decide, hheader⟩
    have := hsize m hm
    omega
  obtain ⟨s', pkts, hok, hmarked, hsame⟩ := sendLpPackets_ok env hready 0 s
  obtain ⟨pkt, hpkt, rfl⟩ : ∃ pkt, Marked lpPacket pkt ∧ pkts = [pkt] := by
    obtain _ | ⟨hpkt, hnil⟩ := hmarked
    cases hnil
    exact ⟨_, hpkt, rfl⟩
  have hcheck : checkSingle [lpPacket] = .ok () := by
    rw [checkSingle, has_eq_false hwhole.noIndex, has_eq_false hwhole.noCount]
    rfl
  have hsmall : lpPacket.bodySize + 5 < 2 ^ 64 := by
    cases hmtu : env.getMtu with
    | none => exact hmemory hmtu
    | some m =>
      have := hsize m hmtu
      have := Environment.getMtu_lt hmtu
      omega
  refine ⟨s', [pkt], ?_, .single pkt (hheads.marked hpkt) ?_ ?_ ?_, ?_, hsame.1⟩
  · simp only [sendValPacket, hfrags, hcheck, bind, Except.bind, length_singleton]
    exact hok
  · rw [hpkt.find (by decide), hwhole.fragment]
  · rw [hpkt.find (by decide), hwhole.noIndex]
  · rw [hpkt.find (by decide), hwhole.noCount]
  · refine forall_mem_singleton.mpr ⟨hpkt.wellFormed hwhole.wellFormed, ?_⟩
    have := hpkt.bodySize_le
    omega

theorem checkSingle_of_two_le {pkts : List Packet} (h : 2 ≤ pkts.length) :
    checkSingle pkts = .ok () := by
  match pkts, h with
  | _ :: _ :: _, _ => rfl

/-- The fragments of a packet with their sequence numbers, before the marks. -/
def numberedFragments (lpPacket : Packet) (first : UInt64) (chunks : List (List UInt8)) :
    List Packet :=
  chunks.mapIdx fun i c =>
    numbered (fragmentOf lpPacket i chunks.length c) (first + UInt64.ofNat i)

theorem assignSequences_fragments (lpPacket : Packet) (lastSeqNo : UInt64)
    (chunks : List (List UInt8)) :
    assignSequences lastSeqNo (chunks.mapIdx fun i c => fragmentOf lpPacket i chunks.length c) =
      .ok (lastSeqNo + UInt64.ofNat chunks.length,
        numberedFragments lpPacket (lastSeqNo + 1) chunks) := by
  rw [assignSequences_ok, mapIdx_mapIdx, length_mapIdx]
  rfl

section Fragments

variable {mtu : ℕ} {chunks : List (List UInt8)} {first : UInt64} {pkt : Packet}

/-- A numbered fragment is 22 octets below the MTU if 12 of it are reserved. -/
theorem of_mem_numberedFragments (hsplit : Split lpPacket octets (mtu - 12) chunks)
    (h : pkt ∈ numberedFragments lpPacket first chunks) :
    ∃ i c sequence, pkt = numbered (fragmentOf lpPacket i chunks.length c) sequence ∧
      pkt.bodySize + 22 ≤ mtu := by
  obtain ⟨i, hi, rfl⟩ := mem_mapIdx.mp h
  have hfits := hsplit.fits i hi
  have hsize := bodySize_numbered_le (fragmentOf lpPacket i chunks.length chunks[i])
    (first + UInt64.ofNat i)
  exact ⟨i, chunks[i], _, rfl, by omega⟩

theorem ready_of_mem (hwhole : Whole lpPacket octets)
    (hsplit : Split lpPacket octets (mtu - 12) chunks)
    (h : pkt ∈ numberedFragments lpPacket first chunks) : Ready (some mtu) pkt := by
  obtain ⟨i, c, sequence, rfl, hsize⟩ := of_mem_numberedFragments hsplit h
  refine ⟨fun m' hm' => ?_, .fragIndex, nonNegativeInteger i, by decide, by decide, ?_⟩
  · cases hm'
    omega
  · rw [numbered, find_put_of_ne (by decide), find_fragmentOf_index hwhole.carries]

theorem sound_of_marked (hwhole : Whole lpPacket octets) (hmtu : mtu < 2 ^ 16)
    (hsplit : Split lpPacket octets (mtu - 12) chunks)
    (h : pkt ∈ numberedFragments lpPacket first chunks) {pkt' : Packet}
    (hmarked : Marked pkt pkt') : Sound pkt' := by
  obtain ⟨i, c, sequence, rfl, hsize⟩ := of_mem_numberedFragments hsplit h
  refine ⟨hmarked.wellFormed ((wellFormed_fragmentOf hwhole ..).put ..), ?_⟩
  have := hmarked.bodySize_le
  omega

end Fragments

/-- A packet that is split is sent as the fragments of a message. -/
theorem sendValPacket_split {s : Service} {env : Environment} {m : ℕ}
    (hwhole : Whole lpPacket octets) (hheads : Heads fields lpPacket) (hmtu : env.getMtu = some m)
    (hsplit : Split lpPacket octets (m - 12) chunks) (hmax : chunks.length ≤ 400)
    (hfrags : fragments s.options env.getMtu lpPacket =
      .ok (some (chunks.mapIdx fun i c => fragmentOf lpPacket i chunks.length c))) :
    ∃ s' pkts, s.sendValPacket env.getMtu env lpPacket = .ok (s', pkts.map frame) ∧
      Emitted fields octets (s.lastSeqNo + 1) 400 pkts ∧ (∀ pkt ∈ pkts, Sound pkt) ∧
      s'.options = s.options := by
  have htwo := hsplit.two_le
  have hlt := Environment.getMtu_lt hmtu
  have hready : ∀ pkt ∈ numberedFragments lpPacket (s.lastSeqNo + 1) chunks,
      Ready env.getMtu pkt := by
    intro pkt hpkt
    rw [hmtu]
    exact ready_of_mem hwhole hsplit hpkt
  obtain ⟨s', pkts, hok, hmarked, hsame⟩ := sendLpPackets_ok env hready 0
    { s with lastSeqNo := s.lastSeqNo + UInt64.ofNat chunks.length }
  have hcheck : checkSingle (chunks.mapIdx fun i c => fragmentOf lpPacket i chunks.length c) =
      .ok () :=
    checkSingle_of_two_le (by rwa [length_mapIdx])
  have hlength : pkts.length = chunks.length := by
    rw [← hmarked.length_eq, numberedFragments, length_mapIdx]
  have hshort : chunks.length * (m - 12) < 2 ^ 32 := by
    calc chunks.length * (m - 12) ≤ 400 * 2 ^ 16 := Nat.mul_le_mul hmax (by omega)
      _ < 2 ^ 32 := by decide
  have hpkts : ∀ i (hi : i < chunks.length) (hi' : i < pkts.length),
      Marked (numbered (fragmentOf lpPacket i chunks.length chunks[i])
        (s.lastSeqNo + 1 + UInt64.ofNat i)) pkts[i] := by
    intro i hi hi'
    have hget := (forall₂_iff_get.mp hmarked).2 i
      (by rwa [numberedFragments, length_mapIdx]) hi'
    simpa [numberedFragments] using hget
  have hsound : ∀ pkt ∈ pkts, Sound pkt := by
    intro pkt hpkt
    obtain ⟨i, hi, rfl⟩ := getElem_of_mem hpkt
    exact sound_of_marked hwhole hlt hsplit (mem_mapIdx.mpr ⟨i, hlength ▸ hi, rfl⟩)
      (hpkts i (hlength ▸ hi) hi)
  obtain ⟨message, hchunks, hid, rfl⟩ := exists_message hwhole hsplit hshort hlength hpkts
  have hfirst : Marked (numbered (fragmentOf lpPacket 0 chunks.length chunks[0])
      (s.lastSeqNo + 1 + UInt64.ofNat 0)) (message.packet 0) := by
    have hzero := hpkts 0 (by omega) (by omega)
    rwa [getElem_map, getElem_range] at hzero
  refine ⟨s', _, ?_, .message message (((hheads.fragmentOf ..).numbered _).marked hfirst)
    (hchunks ▸ hsplit.flatten) hid (by rw [Message.fragCount, hchunks]; exact hmax), hsound,
    hsame.1⟩
  simp only [sendValPacket, hfrags, hcheck, bind, Except.bind, length_mapIdx,
    assignSequences_fragments]
  rw [if_pos (by omega)]
  exact hok

end Send

/-! ### VAL packets that are sent -/

/-- The decoders take the network packet of the payload: its octets are those of
one block, from which the decoder of its kind gets it back. `wireEncode()` of an
Interest and of a Data ends with just that. The tags of self-learning are on the
packets they are made for, an Interest that is not to be discovered or a Data
with a prefix announcement. -/
def Codec.Takes (codec : Codec) : Payload → Prop
  | .notSet => False
  | .interest interest wire tags =>
      wire.type = tlvInterest ∧ readBlock wire.octets = .ok wire ∧
        codec.interest wire = .ok interest ∧ tags.prefixAnnouncement = none
  | .data data wire tags =>
      wire.type = tlvData ∧ readBlock wire.octets = .ok wire ∧
        codec.data wire = .ok data ∧ tags.nonDiscovery = false ∧
        ∀ value ∈ tags.prefixAnnouncement, codec.prefixAnnouncement value = .ok ()

/-- A VAL packet that can be sent. -/
structure Sendable (codec : Codec) where
  packet : ValPacket
  takes : codec.Takes packet.payload

/-- The fragmentation of the packet's LpPacket succeeds. Where there is no MTU
the LpPacket has to fit into the memory. -/
def Fragmented (options : Options) (mtu : Option ℕ) (valPacket : ValPacket) : Prop :=
  ∃ wire lpPacket frags, valPacket.payload.wire = some wire ∧
    makeLpPacket options valPacket.valHeader wire valPacket.payload.tags = .ok lpPacket ∧
    fragments options mtu lpPacket = .ok (some frags) ∧
    (mtu = none → lpPacket.bodySize + 5 < 2 ^ 64)

section Outgoing

variable {codec : Codec} {payload : Payload} {wire : WireBlock}

theorem Codec.Takes.of_wire (h : codec.Takes payload) (hwire : payload.wire = some wire) :
    (wire.type = tlvInterest ∨ wire.type = tlvData) ∧ readBlock wire.octets = .ok wire := by
  cases payload with
  | notSet => cases hwire
  | interest interest wire' tags =>
    cases hwire
    exact ⟨.inl h.1, h.2.1⟩
  | data data wire' tags =>
    cases hwire
    exact ⟨.inr h.1, h.2.1⟩

theorem Codec.Takes.exists_wire (h : codec.Takes payload) : ∃ wire, payload.wire = some wire := by
  cases payload with
  | notSet => exact h.elim
  | interest interest wire tags | data data wire tags => exact ⟨wire, rfl⟩

theorem ne_nil_of_readBlock {octets : List UInt8} (h : readBlock octets = .ok wire) :
    octets ≠ [] := by
  rintro rfl
  cases h

variable {s : Service} {env : Environment}

theorem doSendValPacket_eq {valPacket : ValPacket} {lpPacket : Packet}
    (hwire : valPacket.payload.wire = some wire)
    (hmake : makeLpPacket s.options valPacket.valHeader wire valPacket.payload.tags =
      .ok lpPacket) :
    s.doSendValPacket env valPacket = s.sendValPacket env.getMtu env lpPacket := by
  obtain ⟨valHeader, payload⟩ := valPacket
  cases payload with
  | notSet => cases hwire
  | interest interest wire' tags | data data wire' tags =>
    cases hwire
    simp only [Payload.tags] at hmake
    simp only [doSendValPacket, hmake, bind, Except.bind]

/-- **What a link service sends.** If the fragmentation succeeds the packet goes
out whole or as a message that begins with the next sequence number, whatever the
queue and the clock are like. -/
theorem doSendValPacket_ok {v : Sendable codec} (hoptions : s.options = .stackHelper)
    (hfragmented : Fragmented s.options env.getMtu v.packet) :
    ∃ s' wire pkts, v.packet.payload.wire = some wire ∧
      s.doSendValPacket env v.packet = .ok (s', pkts.map frame) ∧
      Emitted (lpFields .stackHelper v.packet.valHeader wire.octets v.packet.payload.tags)
        wire.octets (s.lastSeqNo + 1) 400 pkts ∧
      (∀ pkt ∈ pkts, Sound pkt) ∧ s'.options = s.options := by
  obtain ⟨wire, lpPacket, frags, hwire, hmake, hfrags, hmemory⟩ := hfragmented
  obtain ⟨htype, hread⟩ := v.takes.of_wire hwire
  obtain ⟨lpPacket', hmake', hfields⟩ := makeLpPacket_ok s.options v.packet.valHeader
    v.packet.payload.tags htype
  cases hmake.symm.trans hmake'
  rw [hoptions] at hfields
  have hfind := congrFun hfields.find
  have hwhole : Whole lpPacket wire.octets :=
    ⟨hfields.wellFormed, hfind .fragment, ne_nil_of_readBlock hread, hfind .fragIndex,
      hfind .fragCount, .valHeader, _, by decide, hfind .valHeader⟩
  have hheads : Heads (lpFields .stackHelper v.packet.valHeader wire.octets
      v.packet.payload.tags) lpPacket := by
    refine ⟨fun f _ => hfind f, fun value hvalue => ?_⟩
    rw [hfind] at hvalue
    obtain ⟨mark, -, rfl⟩ := Option.map_eq_some_iff.mp hvalue
    exact ⟨mark, rfl⟩
  rw [doSendValPacket_eq hwire hmake]
  obtain ⟨rfl, hsize⟩ | ⟨m, chunks, hmtu, hsplit, hmax, rfl⟩ :=
    fragments_cases hwhole (hoptions ▸ hfrags)
  · obtain ⟨s', pkts, hsent⟩ :=
      sendValPacket_single hwhole hheads (hfind .valHeader) hfrags hsize hmemory 400
    exact ⟨s', wire, pkts, hwire, hsent⟩
  · obtain ⟨s', pkts, hsent⟩ := sendValPacket_split hwhole hheads hmtu hsplit hmax hfrags
    exact ⟨s', wire, pkts, hwire, hsent⟩

/-- If the fragmentation fails nothing is sent. -/
theorem doSendValPacket_cases {s' : Service} {v : Sendable codec} {frames : List WireBlock}
    (hoptions : s.options = .stackHelper) (hmtu : env.mtu ≠ none)
    (h : s.doSendValPacket env v.packet = .ok (s', frames)) :
    s'.options = s.options ∧ (frames = [] ∨
      ∃ wire pkts, v.packet.payload.wire = some wire ∧ frames = pkts.map frame ∧
        Emitted (lpFields .stackHelper v.packet.valHeader wire.octets v.packet.payload.tags)
          wire.octets (s.lastSeqNo + 1) 400 pkts ∧
        ∀ pkt ∈ pkts, Sound pkt) := by
  obtain ⟨wire, hwire⟩ := v.takes.exists_wire
  obtain ⟨lpPacket, hmake, -⟩ := makeLpPacket_ok s.options v.packet.valHeader
    v.packet.payload.tags (v.takes.of_wire hwire).1
  cases hfrags : fragments s.options env.getMtu lpPacket with
  | error failure =>
    rw [doSendValPacket_eq hwire hmake, sendValPacket, hfrags] at h
    cases h
  | ok result =>
    cases result with
    | none =>
      rw [doSendValPacket_eq hwire hmake, sendValPacket, hfrags] at h
      cases h
      exact ⟨rfl, .inl rfl⟩
    | some frags =>
      obtain ⟨s₁, wire, pkts, hwire, hsend, hemitted, hsound, hsame⟩ :=
        doSendValPacket_ok hoptions
          ⟨wire, lpPacket, frags, hwire, hmake, hfrags,
            fun hnone => absurd (Option.map_eq_none_iff.mp hnone) hmtu⟩
      cases h.symm.trans hsend
      exact ⟨hsame, .inr ⟨wire, pkts, hwire, rfl, hemitted, hsound⟩⟩

end Outgoing

end ValProofs.Link
