import Mathlib.Data.List.Perm.Subperm
import ValProofs.Link.Incoming

/-!
From one link service to another.

The packets that are sent for a VAL packet arrive at a peer in any order, each
of them at least once and perhaps more often. What the peer hands on are copies
of the VAL packet, as many as the collector of the message's fragments gets
complete.
-/

namespace ValProofs.Link

open Lib Message Service List

namespace Service

/-- The packets arrive one after the other; the result has the VAL packets that
are handed on. -/
def receiveAll (codec : Codec) (remoteEndpoint : UInt64) :
    Service → List WireBlock → Except Failure (Service × List ValPacket)
  | s, [] => .ok (s, [])
  | s, packet :: packets => do
      let (s, handed) ← s.doReceivePacket codec remoteEndpoint packet
      let (s, rest) ← receiveAll codec remoteEndpoint s packets
      return (s, handed.toList ++ rest)

theorem receiveAll_cons {codec : Codec} {remoteEndpoint : UInt64} {s s₁ s₂ : Service}
    {packet : WireBlock} {packets : List WireBlock} {handed : Option ValPacket}
    {rest : List ValPacket} (h : s.doReceivePacket codec remoteEndpoint packet = .ok (s₁, handed))
    (hrest : receiveAll codec remoteEndpoint s₁ packets = .ok (s₂, rest)) :
    receiveAll codec remoteEndpoint s (packet :: packets) = .ok (s₂, handed.toList ++ rest) := by
  simp only [receiveAll, h, hrest, bind, Except.bind]
  rfl

end Service

section RoundTrip

variable {codec : Codec} {v : Sendable codec} {wire : WireBlock}

/-! ### A packet that was not fragmented -/

variable {pkt : Packet}

/-- The one packet in which the VAL packet is sent. -/
structure ConveysWhole (v : Sendable codec) (wire : WireBlock) (pkt : Packet) : Prop where
  wire_eq : v.packet.payload.wire = some wire
  sound : Sound pkt
  heads : Heads (lpFields .stackHelper v.packet.valHeader wire.octets v.packet.payload.tags) pkt
  fragment : pkt.find .fragment = some wire.octets
  fragIndex : pkt.find .fragIndex = none
  fragCount : pkt.find .fragCount = none

theorem doReceivePacket_single (h : ConveysWhole v wire pkt) {s : Service}
    (hoptions : s.options = .stackHelper) (hmax : 1 ≤ s.reassembler.nMaxFragments)
    (remoteEndpoint : UInt64) :
    ∃ s' delivered, s.doReceivePacket codec remoteEndpoint (frame pkt) = .ok (s', some delivered) ∧
      Delivers v.packet delivered ∧ s'.options = s.options ∧ s'.reassembler = s.reassembler := by
  obtain ⟨s', delivered, hreceive, hdelivered⟩ :=
    receiveNetPkt_ok hoptions h.wire_eq h.sound.small h.heads
  refine ⟨s', delivered, ?_, hdelivered⟩
  rw [doReceivePacket, tryReceivePacket_frame hoptions h.sound (Packet.has_of_find h.fragment),
    receiveFragment_single hmax h.fragment h.fragIndex h.fragCount (v.takes.of_wire h.wire_eq).2]
  simp only [processReassembled, hreceive]

/-- Every copy of a whole packet is handed on. -/
theorem receiveAll_single (h : ConveysWhole v wire pkt) {arrivals : List WireBlock}
    (harrivals : ∀ b ∈ arrivals, b = frame pkt) (remoteEndpoint : UInt64) (s : Service)
    (hoptions : s.options = .stackHelper) (hmax : 1 ≤ s.reassembler.nMaxFragments) :
    ∃ s' delivered, s.receiveAll codec remoteEndpoint arrivals = .ok (s', delivered) ∧
      delivered.length = arrivals.length ∧ ∀ d ∈ delivered, Delivers v.packet d := by
  induction arrivals generalizing s with
  | nil => exact ⟨s, [], rfl, rfl, forall_mem_nil _⟩
  | cons b arrivals ih =>
    obtain ⟨rfl, hothers⟩ := forall_mem_cons.mp harrivals
    obtain ⟨s₁, d, hreceive, hd, hoptions₁, hreassembler₁⟩ :=
      doReceivePacket_single h hoptions hmax remoteEndpoint
    obtain ⟨s₂, delivered, hrest, hlength, hdelivered⟩ := ih hothers s₁
      (hoptions₁.trans hoptions) (hreassembler₁ ▸ hmax)
    refine ⟨s₂, d :: delivered, receiveAll_cons hreceive hrest, ?_,
      forall_mem_cons.mpr ⟨hd, hdelivered⟩⟩
    rw [length_cons, length_cons, hlength]

/-! ### The fragments of a message -/

variable {m : Message} {s : Service} {i : ℕ} {held : Finset ℕ} {remoteEndpoint : UInt64}

/-- The fragments of a message in which the VAL packet is sent. -/
structure Conveys (v : Sendable codec) (wire : WireBlock) (m : Message) : Prop where
  wire_eq : v.packet.payload.wire = some wire
  heads : Heads (lpFields .stackHelper v.packet.valHeader wire.octets v.packet.payload.tags)
    (m.packet 0)
  flatten : m.chunks.flatten = wire.octets
  sound : ∀ i < m.fragCount, Sound (m.packet i)

section

variable (hoptions : s.options = .stackHelper) (h : Conveys v wire m)
  (hmax : m.fragCount ≤ s.reassembler.nMaxFragments) (hi : i < m.fragCount)
include hoptions h hmax hi

theorem tryReceivePacket_message :
    s.tryReceivePacket codec remoteEndpoint (frame (m.packet i)) =
      s.processReassembled codec (s.reassembler.addFragment (remoteEndpoint, m.id) i m.fragCount
        (m.packet i) (has_sequence hi) (has_fragment hi)) := by
  rw [tryReceivePacket_frame hoptions (h.sound i hi) (has_fragment hi),
    receiveFragment_packet hmax hi]

variable (htracked : m.Tracked s.reassembler (remoteEndpoint, m.id) held)
include htracked

theorem doReceivePacket_of_mem (hmem : i ∈ held) :
    s.doReceivePacket codec remoteEndpoint (frame (m.packet i)) = .ok (s, none) := by
  rw [doReceivePacket, tryReceivePacket_message hoptions h hmax hi,
    addFragment_of_mem htracked hi hmem]
  rfl

theorem doReceivePacket_of_card (hnot : i ∉ held) (hall : (insert i held).card = m.fragCount) :
    ∃ s' delivered,
      s.doReceivePacket codec remoteEndpoint (frame (m.packet i)) = .ok (s', some delivered) ∧
      Delivers v.packet delivered ∧ s'.options = s.options ∧
      s'.reassembler = s.reassembler.update (remoteEndpoint, m.id) none := by
  have hread : readBlock m.chunks.flatten = .ok wire := by
    rw [h.flatten]
    exact (v.takes.of_wire h.wire_eq).2
  obtain ⟨r, hr⟩ : ∃ r, s.reassembler.update (remoteEndpoint, m.id) none = r := ⟨_, rfl⟩
  have hoptions' : ({ s with reassembler := r } : Service).options = .stackHelper := hoptions
  obtain ⟨s', delivered, hreceive, hdelivered, hoptions'', hreassembler⟩ :=
    receiveNetPkt_ok hoptions' h.wire_eq (h.sound 0 (by omega)).small h.heads
  refine ⟨s', delivered, ?_, hdelivered, hoptions'', hreassembler.trans hr.symm⟩
  rw [doReceivePacket, tryReceivePacket_message hoptions h hmax hi,
    addFragment_of_card htracked hi hnot hall hread, hr]
  simp only [processReassembled, hreceive]

theorem doReceivePacket_of_card_ne (hnot : i ∉ held)
    (hnall : (insert i held).card ≠ m.fragCount) :
    ∃ pp, m.Holds pp (insert i held) ∧
      s.doReceivePacket codec remoteEndpoint (frame (m.packet i)) =
        .ok ({ s with reassembler := s.reassembler.update (remoteEndpoint, m.id) pp }, none) := by
  obtain ⟨pp, hholds, hadd⟩ := addFragment_of_card_ne htracked hi hnot hnall
  refine ⟨pp, hholds, ?_⟩
  rw [doReceivePacket, tryReceivePacket_message hoptions h hmax hi, hadd]
  rfl

end

/-- **The link service is a collector of the message's fragments**: it hands on
a copy of the VAL packet each time the collector gets complete. -/
theorem receiveAll_message (h : Conveys v wire m) {is : List ℕ} (his : ∀ i ∈ is, i < m.fragCount)
    (s : Service) (hoptions : s.options = .stackHelper)
    (hmax : m.fragCount ≤ s.reassembler.nMaxFragments) (held : Finset ℕ)
    (htracked : m.Tracked s.reassembler (remoteEndpoint, m.id) held) :
    ∃ s' delivered,
      s.receiveAll codec remoteEndpoint (is.map fun i => frame (m.packet i)) =
        .ok (s', delivered) ∧
      delivered.length = Collector.completions m.fragCount held is ∧
      ∀ d ∈ delivered, Delivers v.packet d := by
  induction is generalizing s held with
  | nil => exact ⟨s, [], rfl, rfl, forall_mem_nil _⟩
  | cons i is ih =>
    obtain ⟨hi, his⟩ := forall_mem_cons.mp his
    by_cases hmem : i ∈ held
    · have hreceive := doReceivePacket_of_mem hoptions h hmax hi htracked hmem
      obtain ⟨s', delivered, hrest, hlength, hdelivered⟩ := ih his s hoptions hmax held htracked
      refine ⟨s', delivered, receiveAll_cons hreceive hrest, ?_, hdelivered⟩
      rw [hlength, Collector.completions_of_mem hmem]
    by_cases hcard : (insert i held).card = m.fragCount
    · obtain ⟨s₁, d, hreceive, hd, hoptions₁, hreassembler₁⟩ :=
        doReceivePacket_of_card hoptions h hmax hi htracked hmem hcard
      obtain ⟨s', delivered, hrest, hlength, hdelivered⟩ := ih his s₁
        (hoptions₁.trans hoptions) (by rw [hreassembler₁]; exact hmax) ∅
        (tracked_none (by rw [hreassembler₁, Reassembler.partialPackets_update_self]))
      refine ⟨s', d :: delivered, receiveAll_cons hreceive hrest, ?_,
        forall_mem_cons.mpr ⟨hd, hdelivered⟩⟩
      rw [length_cons, hlength, Collector.completions_of_card hmem hcard, Nat.add_comm]
    · obtain ⟨pp, hholds, hreceive⟩ :=
        doReceivePacket_of_card_ne hoptions h hmax hi htracked hmem hcard
      obtain ⟨s', delivered, hrest, hlength, hdelivered⟩ := ih his
        { s with reassembler := s.reassembler.update (remoteEndpoint, m.id) pp } hoptions hmax
        (insert i held) (tracked_update hholds)
      refine ⟨s', delivered, receiveAll_cons hreceive hrest, ?_, hdelivered⟩
      rw [hlength, Collector.completions_of_card_ne hmem hcard]

/-! ### Arrivals -/

theorem frame_injective {pkt' : Packet} (h : Sound pkt) (h' : Sound pkt')
    (heq : frame pkt = frame pkt') : pkt = pkt' := by
  have hdecode := Packet.wireDecode_block h.wellFormed h.small
  have hdecode' := Packet.wireDecode_block h'.wellFormed h'.small
  have heq : WireBlock.ofBlock pkt.block = WireBlock.ofBlock pkt'.block := heq
  rw [heq] at hdecode
  exact Except.ok.inj (hdecode.symm.trans hdecode')

/-- The fragments of a message are different. -/
theorem Conveys.index_injective (h : Conveys v wire m) {j : ℕ} (hi : i < m.fragCount)
    (hj : j < m.fragCount) (heq : frame (m.packet i) = frame (m.packet j)) : i = j := by
  have hpacket := frame_injective (h.sound i hi) (h.sound j hj) heq
  have hread := readIndexAndCount_packet hi
  rw [hpacket, readIndexAndCount_packet hj] at hread
  exact (congrArg Prod.fst (Except.ok.inj hread)).symm

/-- Arrivals of a message's fragments are given by the fragments' numbers. -/
theorem exists_indices {f : ℕ → WireBlock} {n : ℕ} {arrivals : List WireBlock}
    (h : arrivals ⊆ (range n).map f) : ∃ is : List ℕ, (∀ i ∈ is, i < n) ∧ is.map f = arrivals := by
  induction arrivals with
  | nil => exact ⟨[], forall_mem_nil _, rfl⟩
  | cons b arrivals ih =>
    obtain ⟨hb, harrivals⟩ := cons_subset.mp h
    obtain ⟨i, hi, rfl⟩ := mem_map.mp hb
    obtain ⟨is, his, rfl⟩ := ih harrivals
    exact ⟨i :: is, forall_mem_cons.mpr ⟨mem_range.mp hi, his⟩, rfl⟩

/-- **The round trip over a link.** Whatever VAL packet is sent, from whatever
sequence number on and over whatever MTU the fragmentation copes with: if the
packets that are sent arrive at a peer that has received nothing else, in any
order and each at least once, then the peer hands on the VAL packet, nothing
that differs from it in its header or in the octets of the network packet, and
just once if each of them arrives just once. -/
theorem round_trip (v : Sendable codec) {s peer : Service} (env : Environment)
    (remoteEndpoint : UInt64) (hoptions : s.options = .stackHelper)
    (hfragmented : Fragmented s.options env.getMtu v.packet) (hpeer : peer.options = .stackHelper)
    (hidle : peer.reassembler = .initial Options.stackHelper.nMaxFragments) :
    ∃ s' frames, s.doSendValPacket env v.packet = .ok (s', frames) ∧
      ∀ arrivals, arrivals ⊆ frames → frames ⊆ arrivals →
        ∃ peer' delivered,
          peer.receiveAll codec remoteEndpoint arrivals = .ok (peer', delivered) ∧
          delivered ≠ [] ∧ (∀ d ∈ delivered, Delivers v.packet d) ∧
          (arrivals.Perm frames → delivered.length = 1) := by
  obtain ⟨s', wire, pkts, hwire, hsend, hemitted, hsound, -⟩ :=
    doSendValPacket_ok hoptions hfragmented
  refine ⟨s', _, hsend, fun arrivals hsub hsup => ?_⟩
  cases hemitted with
  | single pkt hheads hfragment hindex hcount =>
      have hsound := hsound pkt (List.mem_singleton_self _)
      have harrivals : ∀ b ∈ arrivals, b = frame pkt := fun b hb => List.mem_singleton.mp (hsub hb)
      obtain ⟨peer', delivered, hreceive, hlength, hdelivered⟩ :=
        receiveAll_single ⟨hwire, hsound, hheads, hfragment, hindex, hcount⟩ harrivals
          remoteEndpoint peer hpeer (by rw [hidle]; decide)
      refine ⟨peer', delivered, hreceive, ?_, hdelivered, fun hperm => ?_⟩
      · have hpos := List.length_pos_of_mem (hsup (List.mem_singleton_self _))
        exact List.length_pos_iff.mp (hlength ▸ hpos)
      · rw [hlength, hperm.length_eq]
        rfl
  | message m hheads hflatten hid hmax =>
      have hconveys : Conveys v wire m :=
        ⟨hwire, hheads, hflatten, fun i hi =>
          hsound _ (List.mem_map_of_mem (List.mem_range.mpr hi))⟩
      rw [List.map_map] at hsub hsup ⊢
      obtain ⟨is, his, rfl⟩ := exists_indices hsub
      have hcover : ∀ i < m.fragCount, i ∈ is := by
        intro i hi
        obtain ⟨j, hj, heq⟩ := List.mem_map.mp (hsup (List.mem_map_of_mem (List.mem_range.mpr hi)))
        exact hconveys.index_injective (his j hj) hi heq ▸ hj
      have hpos : 0 < m.fragCount := Nat.lt_of_lt_of_le (by decide) m.two_le
      have htracked : m.Tracked peer.reassembler (remoteEndpoint, m.id) ∅ :=
        Message.tracked_none (by rw [hidle]; rfl)
      obtain ⟨peer', delivered, hreceive, hlength, hdelivered⟩ := receiveAll_message hconveys his
        peer hpeer (by rw [hidle]; exact hmax) ∅ htracked
      refine ⟨peer', delivered, hreceive, ?_, hdelivered, fun hperm => ?_⟩
      · have hcomplete : 0 < Collector.completions m.fragCount ∅ is :=
          Collector.completions_pos hpos (by simp) his fun k hk => .inr (hcover k hk)
        exact List.length_pos_iff.mp (hlength ▸ hcomplete)
      · have hlength' := hperm.length_eq
        rw [List.length_map, List.length_map] at hlength'
        have hsubperm : (List.range m.fragCount).Subperm is :=
          List.subperm_of_subset List.nodup_range fun i hi => hcover i (List.mem_range.mp hi)
        have his' := (hsubperm.perm_of_length_le hlength'.le).symm
        rw [hlength, Collector.completions_of_perm hpos his']

end RoundTrip

/-- A Data of 34 octets in a VAL packet with a small header. -/
def samplePacket (octet : UInt8) : ValPacket where
  valHeader := ⟨[octet], [], [], [], 9⟩
  payload := .data ⟨[], ⟨⟨-1, none, []⟩, ⟨23, []⟩⟩, 0, List.replicate 32 octet, none⟩
    (.ofBlock ⟨tlvData, List.replicate 32 octet⟩) .none

theorem takes_samplePacket (octet : UInt8) : contentCodec.Takes (samplePacket octet).payload :=
  ⟨rfl, readBlock_wire ⟨(by decide : tlvData < 2 ^ 32), by simp⟩, rfl, rfl, nofun⟩

def sampleSendable (octet : UInt8) : Sendable contentCodec where
  packet := samplePacket octet
  takes := takes_samplePacket octet

/-- A device with the MTU and an idle queue. -/
def sampleEnvironment (mtu : UInt16) : Environment where
  mtu := some mtu
  sendQueueCapacity := -1
  sendQueueLength := fun _ => -1
  now := fun _ => 0
  markingInterval := fun _ => 0

theorem fragmented_samplePacket : Fragmented .stackHelper (some 102) (samplePacket 0) :=
  ⟨_, _, _, rfl, rfl, rfl, nofun⟩

/-- The sample goes out in two fragments. -/
theorem round_trip_two_fragments :
    Fragmented .stackHelper (some 102) (samplePacket 0) ∧
    ∃ s' frames, (Service.initial .stackHelper).doSendValPacket (sampleEnvironment 102)
        (samplePacket 0) = .ok (s', frames) ∧
      ∀ arrivals, arrivals ⊆ frames → frames ⊆ arrivals →
        ∃ peer' delivered, (Service.initial .stackHelper).receiveAll contentCodec 0 arrivals =
            .ok (peer', delivered) ∧
          delivered ≠ [] ∧ (∀ d ∈ delivered, Delivers (samplePacket 0) d) ∧
          (arrivals.Perm frames → delivered.length = 1) :=
  ⟨fragmented_samplePacket, round_trip (sampleSendable 0) (sampleEnvironment 102) 0 rfl
    fragmented_samplePacket rfl rfl⟩

end ValProofs.Link
