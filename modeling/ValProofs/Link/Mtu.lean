import ValProofs.Link.Outgoing

/-!
The link service on a transport with any MTU.

`getMtu()` is an `ssize_t`, and it is the devices of the simulation that have no
more than 16 bits for it. What the send path reserves is enough for every MTU: the
fragmenter leaves room for the sequence number, and 12 octets are kept back for the
congestion mark. So the check for the MTU at the end of the path finds nothing.
-/

namespace ValProofs.Link

open Lib Packet Service List Option

/-! ### What the fragments carry -/

namespace Packet

/-- The fields that make the packet a fragment are the same. -/
def SameFragment (pkt pkt' : Packet) : Prop :=
  ∀ f ∈ [Field.fragment, .fragIndex, .fragCount], pkt'.find f = pkt.find f

theorem sameFragment_numbered (pkt : Packet) (sequence : UInt64) :
    pkt.SameFragment (numbered pkt sequence) := by
  intro f hf
  have hne : f ≠ .sequence := by
    rintro rfl
    exact absurd hf (by decide)
  rw [numbered, find_put_of_ne hne]

theorem sameFragment_of_marked {pkt pkt' : Packet} (h : Marked pkt pkt') :
    pkt.SameFragment pkt' := by
  intro f hf
  refine h.find ?_
  rintro rfl
  exact absurd hf (by decide)

end Packet

/-- The packets carry the network packet between them, and a single one has not the
fields of a fragment. -/
structure Assembles (netPkt : List UInt8) (pkts : List Packet) : Prop where
  payloads : pkts.flatMap Packet.payload = netPkt
  single : pkts.length = 1 →
    ∀ pkt ∈ pkts, pkt.has .fragIndex = false ∧ pkt.has .fragCount = false

namespace Assembles

variable {netPkt : List UInt8} {pkts pkts' : List Packet}

theorem of_forall₂ (h : Assembles netPkt pkts)
    (hsame : Forall₂ SameFragment pkts pkts') : Assembles netPkt pkts' where
  payloads := by
    have hmap : pkts.map payload = pkts'.map payload := by
      rw [← forall₂_eq_eq_eq, forall₂_map_left_iff, forall₂_map_right_iff]
      refine hsame.imp fun pkt pkt' hpkt => ?_
      rw [payload, payload, hpkt .fragment (by decide)]
    rw [flatMap_def, ← hmap, ← flatMap_def, h.payloads]
  single := by
    intro hlength pkt' hpkt'
    obtain ⟨i, hi, rfl⟩ := getElem_of_mem hpkt'
    have hi' : i < pkts.length := hsame.length_eq.symm ▸ hi
    have hpkt := (forall₂_iff_get.mp hsame).2 i hi' hi
    have hsingle := h.single (hsame.length_eq.trans hlength) _ (getElem_mem hi')
    exact ⟨(congrArg isSome (hpkt .fragIndex (by decide))).trans hsingle.1,
      (congrArg isSome (hpkt .fragCount (by decide))).trans hsingle.2⟩

/-- The assertions of `sendValPacket` hold. -/
theorem checkSingle_eq (h : Assembles netPkt pkts) : checkSingle pkts = .ok () := by
  match pkts, h with
  | [], _ => rfl
  | [pkt], h =>
    obtain ⟨hindex, hcount⟩ := h.single rfl pkt (mem_singleton_self pkt)
    rw [checkSingle, hindex, hcount]
    rfl
  | _ :: _ :: _, _ => rfl

end Assembles

variable {mtu : ℕ}

theorem notFragment_of_fragmentPacket {options : FragmenterOptions} {packet : Packet}
    {frags : List Packet} (h : fragmentPacket options packet mtu = .ok (some frags)) :
    packet.find .fragIndex = none ∧ packet.find .fragCount = none := by
  rw [fragmentPacket] at h
  split_ifs at h with hfragment hindex hcount
  exact ⟨not_isSome_iff_eq_none.mp hindex, not_isSome_iff_eq_none.mp hcount⟩

/-- The packet leaves room for `room` octets, and has a header that no later step
replaces. -/
structure Spacious (mtu room : ℕ) (pkt : Packet) : Prop where
  size : pkt.bodySize + room ≤ mtu
  header : ∃ f ∈ [Field.valHeader, .fragIndex], ∃ value, pkt.find f = some value

variable {pkt : Packet}

theorem Spacious.mono {mtu' room room' : ℕ} (h : Spacious mtu room pkt)
    (hle : mtu + room' ≤ mtu' + room) : Spacious mtu' room' pkt where
  size := by
    have hsize := h.size
    omega
  header := h.header

section Fragments

variable {packet : Packet} {netPkt value : List UInt8} {frags : List Packet} {mtu : ℕ}

theorem assembles_singleton (h : Carries packet netPkt) : Assembles netPkt [packet] where
  payloads := by
    rw [flatMap_singleton, payload, find_eq_of_filter h.fragment]
    rfl
  single := fun _ => forall_mem_singleton.mpr
    ⟨has_eq_false h.noIndex, has_eq_false h.noCount⟩

theorem assembles_split {chunks : List (List UInt8)} (h : Split packet netPkt mtu chunks) :
    Assembles netPkt (chunks.mapIdx fun i c => fragmentOf packet i chunks.length c) where
  payloads := by
    have hmap : (chunks.mapIdx fun i c => fragmentOf packet i chunks.length c).map
        payload = chunks := by
      refine ext_getElem (by simp) fun i hi hi' => ?_
      rw [getElem_map, getElem_mapIdx, payload, find_fragmentOf_fragment]
      rfl
    rw [flatMap_def, hmap, h.flatten]
  single := by
    intro hlength
    rw [length_mapIdx] at hlength
    have htwo := h.two_le
    omega

/-- **What the fragmenter makes**: packets with the network packet in them that are
small enough for a sequence number. -/
theorem fragmentPacket_assembles {options : FragmenterOptions} (hcarries : Carries packet netPkt)
    (hheader : packet.find .valHeader = some value)
    (h : fragmentPacket options packet mtu = .ok (some frags)) :
    Assembles netPkt frags ∧ ∀ frag ∈ frags, Spacious mtu 20 frag := by
  obtain hfails | ⟨hfast, hsize⟩ | ⟨chunks, hsplit, -, hslow⟩ :=
    fragmentPacket_cases hcarries options mtu
  · cases hfails.symm.trans h
  · cases hfast.symm.trans h
    refine ⟨assembles_singleton hcarries, forall_mem_singleton.mpr ⟨by omega, ?_⟩⟩
    exact ⟨.valHeader, by decide, value, hheader⟩
  · cases hslow.symm.trans h
    refine ⟨assembles_split hsplit, fun frag hfrag => ?_⟩
    obtain ⟨i, hi, rfl⟩ := mem_mapIdx.mp hfrag
    exact ⟨hsplit.fits i hi, .fragIndex, by decide, _, find_fragmentOf_index hcarries ..⟩

end Fragments

/-! ### What is sent -/

theorem Spacious.ready (h : Spacious mtu 15 pkt) : Ready (some mtu) pkt where
  within := by
    intro m hm
    cases hm
    exact h.size
  header := by
    obtain ⟨f, hf, value, hfind⟩ := h.header
    refine ⟨f, value, ?_, ?_, hfind⟩ <;>
    · rintro rfl
      exact absurd hf (by decide)

/-- A sequence number takes ten octets. -/
theorem Spacious.numbered {room : ℕ} (h : Spacious mtu (room + 10) pkt) (sequence : UInt64) :
    Spacious mtu room (numbered pkt sequence) where
  size := by
    have hsize := h.size
    have hbody := bodySize_numbered_le pkt sequence
    omega
  header := by
    obtain ⟨f, hf, value, hfind⟩ := h.header
    have hne : f ≠ .sequence := by
      rintro rfl
      exact absurd hf (by decide)
    refine ⟨f, hf, value, ?_⟩
    rw [Link.numbered, find_put_of_ne hne, hfind]

/-- After `assignSequences`, if there is more than one fragment, and before the
marks. -/
theorem sendValPacket_eq {s : Service} (env : Environment) {packet : Packet}
    {netPkt : List UInt8} {frags : List Packet}
    (hfrags : fragments s.options (some mtu) packet = .ok (some frags))
    (hassembles : Assembles netPkt frags) (hroom : ∀ frag ∈ frags, Spacious mtu 25 frag) :
    ∃ s₁ frags', s.sendValPacket (some mtu) env packet =
        sendLpPackets (some mtu) env 0 s₁ frags' ∧
      Forall₂ SameFragment frags frags' ∧
      (∀ frag ∈ frags', Ready (some mtu) frag) ∧ s₁.nOutOverMtu = s.nOutOverMtu := by
  simp only [sendValPacket, hfrags, hassembles.checkSingle_eq, bind, Except.bind]
  by_cases hmany : 1 < frags.length
  · simp only [if_pos hmany, assignSequences_ok]
    refine ⟨_, _, rfl, ?_, ?_, rfl⟩
    · refine forall₂_iff_get.mpr ⟨(length_mapIdx ..).symm, fun i hi hi' => ?_⟩
      rw [get_eq_getElem, get_eq_getElem, getElem_mapIdx]
      exact sameFragment_numbered _ _
    · intro frag hfrag
      obtain ⟨i, hi, rfl⟩ := mem_mapIdx.mp hfrag
      exact ((hroom _ (getElem_mem hi)).numbered _).ready
  · refine ⟨s, frags, if_neg hmany, forall₂_same.mpr fun _ _ _ _ => rfl, fun frag hfrag => ?_, rfl⟩
    exact ((hroom frag hfrag).mono (by omega)).ready

theorem size_le_of_forall₂ {pkts pkts' : List Packet} (hready : ∀ pkt ∈ pkts, Ready (some mtu) pkt)
    (hmarked : Forall₂ Marked pkts pkts') : ∀ pkt ∈ pkts', pkt.block.size ≤ mtu := by
  intro pkt' hpkt'
  obtain ⟨i, hi, rfl⟩ := getElem_of_mem hpkt'
  have hi' : i < pkts.length := hmarked.length_eq.symm ▸ hi
  exact (hready _ (getElem_mem hi')).size_le ((forall₂_iff_get.mp hmarked).2 i hi' hi) mtu rfl

/-- **No packet over the MTU.** If the fragmenter succeeds, all the packets are sent,
each within the MTU of the transport, whichever of them get a congestion mark. A
single packet has no fields of a fragment, and the payloads together are the network
packet. -/
theorem sent_within_mtu {s : Service} (env : Environment) {mtu : ℕ} {packet : Packet}
    {netPkt value : List UInt8} {frags : List Packet}
    (hfragmentation : s.options.allowFragmentation = true)
    (hmarking : s.options.allowCongestionMarking = true) (hmtu : congestionMarkSize < mtu)
    (hfragment : packet.elements.filter (fun e => e.type = Field.fragment.tlvType) =
      [⟨Field.fragment.tlvType, netPkt⟩]) (hnonempty : netPkt ≠ [])
    (hheader : packet.find .valHeader = some value)
    (hok : fragmentPacket s.options.fragmenterOptions packet (mtu - congestionMarkSize) =
      .ok (some frags)) :
    Assembles netPkt frags ∧
    ∃ s' pkts, s.sendValPacket (some mtu) env packet = .ok (s', pkts.map frame) ∧
      s'.nOutOverMtu = s.nOutOverMtu ∧ pkts.length = frags.length ∧
      (∀ wire ∈ pkts.map frame, wire.octets.length ≤ mtu) ∧ Assembles netPkt pkts := by
  obtain ⟨hindex, hcount⟩ := notFragment_of_fragmentPacket hok
  have hcarries : Carries packet netPkt :=
    ⟨hfragment, hnonempty, hindex, hcount, .valHeader, value, by decide, hheader⟩
  obtain ⟨hassembles, hspacious⟩ := fragmentPacket_assembles hcarries hheader hok
  have hfrags : fragments s.options (some mtu) packet = .ok (some frags) := by
    simp only [fragments, hfragmentation, hmarking, if_true]
    rw [if_neg (Nat.not_le.mpr hmtu), hok]
  have hreserved : congestionMarkSize = 12 := rfl
  have hroom : ∀ frag ∈ frags, Spacious mtu 25 frag := by
    intro frag hfrag
    exact (hspacious frag hfrag).mono (by omega)
  obtain ⟨s₁, frags', heq, hsame, hready, hcount₁⟩ :=
    sendValPacket_eq env hfrags hassembles hroom
  obtain ⟨s', pkts, hsent, hmarked, -, hcount'⟩ := sendLpPackets_ok env hready 0 s₁
  have hassembles' := (hassembles.of_forall₂ hsame).of_forall₂
    (hmarked.imp fun _ _ h => Packet.sameFragment_of_marked h)
  exact ⟨hassembles, s', pkts, heq.trans hsent, hcount'.trans hcount₁,
    hmarked.length_eq.symm.trans hsame.length_eq.symm,
    List.forall_mem_map.mpr (size_le_of_forall₂ hready hmarked), hassembles'⟩

/-- A network packet of 40 octets. -/
def wide : Packet := ⟨[⟨850, [1]⟩, ⟨80, List.replicate 40 7⟩]⟩

/-- The queue is long, so that a packet gets a mark. -/
def busyEnvironment : Environment where
  mtu := none
  sendQueueCapacity := -1
  sendQueueLength := fun _ => 100000
  now := fun _ => 0
  markingInterval := fun _ => 0

/-- It takes four fragments if the MTU is 75. -/
theorem sent_within_mtu_wide :
    ∃ frags, fragmentPacket {} wide (75 - congestionMarkSize) = .ok (some frags) ∧
      frags.length = 4 ∧ Assembles (List.replicate 40 7) frags ∧
      ∃ s' pkts, (Service.initial .stackHelper).sendValPacket (some 75) busyEnvironment
          wide = .ok (s', pkts.map frame) ∧
        s'.nOutOverMtu = 0 ∧ pkts.length = frags.length ∧
        (∀ wire ∈ pkts.map frame, wire.octets.length ≤ 75) ∧ Assembles (List.replicate 40 7) pkts :=
  ⟨_, rfl, rfl, sent_within_mtu (s := .initial .stackHelper) busyEnvironment rfl rfl (by decide)
    rfl (by decide) rfl rfl⟩

end ValProofs.Link
