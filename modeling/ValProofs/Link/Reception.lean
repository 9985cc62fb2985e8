import ValProofs.Lib.Failure
import ValProofs.Link.Incoming
import ValProofs.Val.Machine

/-!
What a link service does with any block it receives.

`doReceivePacket` catches `tlv::Error`, so a block that is malformed at any level
is dropped. Two things are not caught. The decoder of Interests asserts that
there is no `Nack` field, and no one has checked that: an LpPacket may have it
together with a `ValHeader`. And the decoder of a prefix announcement may throw
something that is not a `tlv::Error`. A third one cannot be seen in a single
block: the sizes of the fragments of a message are added up in 32 bits.

Everything else passes, and a packet that a decoder rejects leaves the tables of
the forwarder as they are.
-/

namespace ValProofs.Link

open Lib Reassembler List

/-- A failure that `doReceivePacket` catches. -/
def Caught : Failure → Prop
  | .tlvError _ => True
  | _ => False

theorem caught_tlvError (error : Tlv.Error) : Caught (.tlvError error) := trivial

/-! ### The message a packet completes -/

/-- The packet goes to the only slot of its partial packet that is free. -/
def Reassembler.Fills (r : Reassembler) (key : Key) (fragIndex fragCount : ℕ)
    (packet : Packet) : Prop :=
  fragCount = (r.lookup key fragCount).fragCount ∧
    ((r.lookup key fragCount).slot fragIndex).has .sequence = false ∧
    ((r.lookup key fragCount).fragments.set fragIndex packet).all (·.has .sequence)

instance (r : Reassembler) (key : Key) (fragIndex fragCount : ℕ) (packet : Packet) :
    Decidable (r.Fills key fragIndex fragCount packet) :=
  inferInstanceAs (Decidable (_ ∧ _))

/-- The LpPackets of the message that the packet completes, if it does. -/
def Reassembler.completed (r : Reassembler) (remoteEndpoint : UInt64) (packet : Packet) :
    Option (List Packet) :=
  match readIndexAndCount packet with
  | .error _ => none
  | .ok (fragIndex, fragCount) =>
      if fragCount ≤ fragIndex ∨ r.nMaxFragments < fragCount then none
      else if fragIndex = 0 ∧ fragCount = 1 then some [packet]
      else
        match packet.getSequence with
        | .error _ => none
        | .ok sequence =>
            let key := (remoteEndpoint, sequence - UInt64.ofNat fragIndex)
            if r.Fills key fragIndex fragCount packet then
              some ((r.lookup key fragCount).fragments.set fragIndex packet)
            else none

/-- The LpPackets of the message that the block completes. -/
def Service.completed (s : Service) (remoteEndpoint : UInt64) (packet : WireBlock) :
    Option (List Packet) :=
  match Packet.wireDecode packet with
  | .error _ => none
  | .ok pkt =>
      if !pkt.has .fragment then none
      else if (pkt.has .fragIndex || pkt.has .fragCount) && !s.options.allowReassembly then none
      else s.reassembler.completed remoteEndpoint pkt

open Packet

/-- The fragments are too large together. -/
def Overflows (pkts : List Packet) : Prop :=
  2 ≤ pkts.length ∧ (∀ p ∈ pkts, p.payload ≠ []) ∧ 2 ^ 32 ≤ (pkts.flatMap Packet.payload).length

/-- The network packet and the LpPacket with the headers, as the decoders get
them, if the fragments are not empty, they make a block, and there is a
`ValHeader` that can be decoded. -/
def toDecode (codec : Codec) (pkts : List Packet) : Option (WireBlock × Packet) :=
  match pkts with
  | [] => none
  | first :: _ =>
      if ∀ p ∈ pkts, p.payload ≠ [] then
        match readBlock (pkts.flatMap Packet.payload), first.find .valHeader with
        | .ok netPkt, some value =>
            match ValHeader.wireDecode ⟨[], [], [], [], codec.uninitialized⟩
              ⟨Field.valHeader.tlvType, value⟩ with
            | .ok _ => some (netPkt, first)
            | .error _ => none
        | _, _ => none
      else none

/-! ### What is not caught -/

/-- An Interest with a `Nack` field. -/
def IsNack (netPkt : WireBlock) (firstPkt : Packet) : Prop :=
  netPkt.type = tlvInterest ∧ firstPkt.has .nack

/-- A Data that is accepted as far as its prefix announcement. -/
structure Announces (codec : Codec) (netPkt : WireBlock) (firstPkt : Packet) : Prop where
  type : netPkt.type = tlvData
  data : ∃ data, codec.data netPkt = .ok data
  hopCount : ∃ hopCount, firstPkt.get? .hopCountTag Packet.decodeUInt64 = .ok hopCount
  nack : firstPkt.has .nack = false
  nextHopFaceId : firstPkt.has .nextHopFaceId = false
  cachePolicy : ∃ policy, firstPkt.get? .cachePolicy decodeCachePolicy = .ok policy
  congestionMark : ∃ mark,
    firstPkt.get? .congestionMark Packet.decodeNonNegativeInteger = .ok mark
  nonDiscovery : firstPkt.has .nonDiscovery = false

/-- The Data is accepted as far as its prefix announcement, whose decoder throws
what is not caught. -/
def IsBadAnnouncement (codec : Codec) (options : Options) (netPkt : WireBlock)
    (firstPkt : Packet) : Prop :=
  Announces codec netPkt firstPkt ∧ options.allowSelfLearning = true ∧
    ∃ value failure, firstPkt.find .prefixAnnouncement = some value ∧
      codec.prefixAnnouncement value = .error failure ∧ ¬ Caught failure

/-- The block completes a message that `doReceivePacket` does not cope with. -/
def Hazard (codec : Codec) (s : Service) (remoteEndpoint : UInt64) (packet : WireBlock) : Prop :=
  ∃ pkts, s.completed remoteEndpoint packet = some pkts ∧
    (Overflows pkts ∨ ∃ netPkt firstPkt, toDecode codec pkts = some (netPkt, firstPkt) ∧
      (IsNack netPkt firstPkt ∨ IsBadAnnouncement codec s.options netPkt firstPkt))

/-! ### The decoders -/

section Decoders

variable {codec : Codec} {options : Options} {netPkt : WireBlock} {firstPkt : Packet} {α : Type}

theorem failsOnly_get {f : Field} (h : firstPkt.has f)
    (decode : ℕ → List UInt8 → Except Tlv.Error α) : FailsOnly Caught (firstPkt.get f decode) := by
  obtain ⟨value, hfind⟩ := Option.isSome_iff_exists.mp h
  rw [Packet.get, hfind]
  exact failsOnly_mapError caught_tlvError _

theorem failsOnly_get? (f : Field) (decode : ℕ → List UInt8 → Except Tlv.Error α) :
    FailsOnly Caught (firstPkt.get? f decode) := by
  rw [get?]
  split
  · rename_i h
    exact (failsOnly_get h decode).map _
  · exact failsOnly_ok _

theorem failsOnly_getIf? (allowed : Bool) (f : Field)
    (decode : ℕ → List UInt8 → Except Tlv.Error α) :
    FailsOnly Caught (firstPkt.getIf? allowed f decode) := by
  rw [getIf?]
  split
  · exact failsOnly_get? f decode
  · exact failsOnly_ok _

/-- The decoder of Interests fails badly only if there is a `Nack` field. -/
theorem failsOnly_decodeInterest (htype : netPkt.type = tlvInterest)
    (hnack : firstPkt.has .nack = false) :
    FailsOnly Caught (decodeInterest codec options netPkt firstPkt) := by
  rw [decodeInterest, if_neg (not_not.mpr htype), if_neg (by rw [hnack]; decide)]
  refine (failsOnly_mapError caught_tlvError _).bind fun interest _ => ?_
  refine (failsOnly_get? _ _).bind fun hopCount _ => ?_
  split
  · exact failsOnly_ok _
  refine (failsOnly_get? _ _).bind fun nextHopFaceId _ => ?_
  split
  · exact failsOnly_ok _
  refine (failsOnly_get? _ _).bind fun congestionMark _ => ?_
  refine (failsOnly_getIf? _ _ _).bind fun nonDiscovery _ => ?_
  split
  · exact failsOnly_ok _
  · exact failsOnly_ok _

/-- The decoder of Data fails badly only if its prefix announcement is bad. -/
theorem failsOnly_decodeData (htype : netPkt.type = tlvData)
    (hannouncement : ¬ IsBadAnnouncement codec options netPkt firstPkt) :
    FailsOnly Caught (decodeData codec options netPkt firstPkt) := by
  rw [decodeData, if_neg (not_not.mpr htype)]
  refine (failsOnly_mapError caught_tlvError _).bind fun data hdata => ?_
  refine (failsOnly_get? _ _).bind fun hopCount hhopCount => ?_
  split
  · exact failsOnly_ok _
  rename_i hnack
  split
  · exact failsOnly_ok _
  rename_i hnextHopFaceId
  refine (failsOnly_get? _ _).bind fun cachePolicy hcachePolicy => ?_
  refine (failsOnly_get? _ _).bind fun congestionMark hcongestionMark => ?_
  split
  · exact failsOnly_ok _
  rename_i hnonDiscovery
  refine FailsOnly.bind ?_ fun _ _ => failsOnly_ok _
  cases hself : options.allowSelfLearning with
  | false => exact failsOnly_ok _
  | true =>
    cases hfind : firstPkt.find .prefixAnnouncement with
    | none => exact failsOnly_ok _
    | some value =>
      intro failure hfailure
      by_contra hnot
      have hannounces : Announces codec netPkt firstPkt :=
        ⟨htype, ⟨data, eq_ok_of_mapError hdata⟩, ⟨hopCount, hhopCount⟩,
          Bool.eq_false_iff.mpr hnack, Bool.eq_false_iff.mpr hnextHopFaceId,
          ⟨cachePolicy, hcachePolicy⟩, ⟨congestionMark, hcongestionMark⟩,
          Bool.eq_false_iff.mpr hnonDiscovery⟩
      exact hannouncement ⟨hannounces, hself, value, failure, hfind, hfailure, hnot⟩

theorem decodeData_of_isBadAnnouncement (h : IsBadAnnouncement codec options netPkt firstPkt) :
    ∃ failure, decodeData codec options netPkt firstPkt = .error failure ∧ ¬ Caught failure := by
  obtain ⟨⟨htype, ⟨data, hdata⟩, ⟨hopCount, hhopCount⟩, hnack, hnextHopFaceId, ⟨cachePolicy,
    hcachePolicy⟩, ⟨congestionMark, hcongestionMark⟩, hnonDiscovery⟩, hself, value, failure, hfind,
    hfailure, hnot⟩ := h
  refine ⟨failure, ?_, hnot⟩
  rw [decodeData, if_neg (not_not.mpr htype)]
  simp only [hdata, hhopCount, hnack, hnextHopFaceId, hcachePolicy, hcongestionMark, hnonDiscovery,
    hself, hfind, decodeAnnouncement, hfailure, Except.mapError, bind, Except.bind,
    Bool.false_eq_true, if_true, if_false]

/-- **What the decoders do not cope with.** -/
theorem failsOnly_decodeNetPkt_iff :
    FailsOnly Caught (decodeNetPkt codec options netPkt firstPkt) ↔
      ¬ (IsNack netPkt firstPkt ∨ IsBadAnnouncement codec options netPkt firstPkt) := by
  constructor
  · rintro h (hnack | hannouncement)
    · rw [decodeNetPkt, if_pos hnack.1, decodeInterest, if_neg (not_not.mpr hnack.1),
        if_pos hnack.2] at h
      exact failsOnly_error.mp h
    · obtain ⟨failure, hdecode, hnot⟩ := decodeData_of_isBadAnnouncement hannouncement
      have htype := hannouncement.1.type
      have hne : netPkt.type ≠ tlvInterest := by
        rw [htype]
        decide
      rw [decodeNetPkt, if_neg hne, if_pos htype, hdecode] at h
      exact hnot (failsOnly_error.mp h)
  · intro h
    obtain ⟨hnack, hannouncement⟩ := not_or.mp h
    rw [decodeNetPkt]
    split
    · rename_i htype
      exact failsOnly_decodeInterest htype (Bool.eq_false_iff.mpr fun hhas => hnack ⟨htype, hhas⟩)
    · split
      · rename_i htype
        exact failsOnly_decodeData htype hannouncement
      · exact failsOnly_ok _

end Decoders

/-! ### A message is put together -/

/-- The network packet of a message. -/
def reassemble (pkts : List Packet) : Except Failure WireBlock := do
  let payloads ← pkts.mapM Packet.getFragment
  if 2 ≤ pkts.length ∧ 2 ^ 32 ≤ (payloads.map List.length).sum then
    throw (.undefined "copy past the end of fragBuffer")
  (readBlock payloads.flatten).mapError .tlvError

/-- The packets of a message have a part of the network packet. -/
def Carrying (pkts : List Packet) : Prop := ∀ p ∈ pkts, p.has .fragment

section Reassemble

variable {pkts : List Packet}

theorem getFragment_eq_ok_iff {p : Packet} {payload : List UInt8} :
    p.getFragment = .ok payload ↔ p.payload = payload ∧ payload ≠ [] := by
  rw [Packet.getFragment, Packet.get, Packet.payload]
  cases p.find .fragment with
  | none =>
    constructor
    · intro h
      cases h
    · rintro ⟨rfl, hne⟩
      exact absurd rfl hne
  | some value =>
    simp only [decodeRange, Option.getD_some]
    by_cases hvalue : value = []
    · rw [if_pos hvalue]
      constructor
      · intro h
        cases h
      · rintro ⟨rfl, hne⟩
        exact absurd hvalue hne
    · rw [if_neg hvalue]
      constructor
      · intro h
        cases h
        exact ⟨rfl, hvalue⟩
      · rintro ⟨rfl, -⟩
        rfl

theorem mapM_getFragment_eq_ok_iff {payloads : List (List UInt8)} :
    pkts.mapM Packet.getFragment = .ok payloads ↔
      pkts.map Packet.payload = payloads ∧ ∀ p ∈ pkts, p.payload ≠ [] := by
  induction pkts generalizing payloads with
  | nil =>
    rw [mapM_nil]
    simp [pure, Except.pure]
  | cons p pkts ih =>
    rw [mapM_cons, forall_mem_cons, map_cons]
    constructor
    · intro h
      cases hp : p.getFragment with
      | error failure =>
        rw [hp] at h
        cases h
      | ok payload =>
        cases hpkts : pkts.mapM Packet.getFragment with
        | error failure =>
          rw [hp, hpkts] at h
          cases h
        | ok payloads =>
          rw [hp, hpkts] at h
          cases h
          obtain ⟨rfl, hne⟩ := getFragment_eq_ok_iff.mp hp
          obtain ⟨rfl, hothers⟩ := ih.mp hpkts
          exact ⟨rfl, hne, hothers⟩
    · rintro ⟨rfl, hne, hothers⟩
      rw [getFragment_eq_ok_iff.mpr ⟨rfl, hne⟩, ih.mpr ⟨rfl, hothers⟩]
      rfl

theorem length_flatMap_payload (pkts : List Packet) :
    ((pkts.map Packet.payload).map length).sum = (pkts.flatMap Packet.payload).length := by
  rw [flatMap_def, length_flatten]

/-- Only fragments that are too large together are not coped with. -/
theorem failsOnly_reassemble (hcarrying : Carrying pkts) (h : ¬ Overflows pkts) :
    FailsOnly Caught (reassemble pkts) := by
  refine (failsOnly_mapM fun p hp => failsOnly_get (hcarrying p hp) _).bind
    fun payloads hpayloads => ?_
  obtain ⟨rfl, hne⟩ := mapM_getFragment_eq_ok_iff.mp hpayloads
  have hsmall : ¬ (2 ≤ pkts.length ∧ 2 ^ 32 ≤ ((pkts.map Packet.payload).map length).sum) := by
    rw [length_flatMap_payload]
    exact fun hlarge => h ⟨hlarge.1, hne, hlarge.2⟩
  rw [if_neg hsmall]
  exact failsOnly_mapError caught_tlvError _

theorem reassemble_of_overflows (h : Overflows pkts) :
    ∃ failure, reassemble pkts = .error failure ∧ ¬ Caught failure := by
  obtain ⟨htwo, hne, hlarge⟩ := h
  have hpayloads := mapM_getFragment_eq_ok_iff.mpr ⟨rfl, hne⟩
  rw [← length_flatMap_payload] at hlarge
  refine ⟨.undefined "copy past the end of fragBuffer", ?_, id⟩
  simp only [reassemble, hpayloads, bind, Except.bind]
  exact if_pos ⟨htwo, hlarge⟩

theorem reassemble_eq_ok_iff {netPkt : WireBlock} :
    reassemble pkts = .ok netPkt ↔ (∀ p ∈ pkts, p.payload ≠ []) ∧ ¬ Overflows pkts ∧
      readBlock (pkts.flatMap Packet.payload) = .ok netPkt := by
  constructor
  · intro h
    rw [reassemble] at h
    cases hpayloads : pkts.mapM Packet.getFragment with
    | error failure =>
      rw [hpayloads] at h
      cases h
    | ok payloads =>
      obtain ⟨rfl, hne⟩ := mapM_getFragment_eq_ok_iff.mp hpayloads
      simp only [hpayloads, bind, Except.bind] at h
      by_cases hlarge : 2 ≤ pkts.length ∧
          2 ^ 32 ≤ ((pkts.map Packet.payload).map length).sum
      · rw [if_pos hlarge] at h
        cases h
      · rw [if_neg hlarge] at h
        rw [length_flatMap_payload] at hlarge
        exact ⟨hne, fun hover => hlarge ⟨hover.1, hover.2.2⟩,
          by rw [flatMap_def]; exact eq_ok_of_mapError h⟩
  · rintro ⟨hne, hsmall, hread⟩
    have hpayloads := mapM_getFragment_eq_ok_iff.mpr ⟨rfl, hne⟩
    have hsmall' : ¬ (2 ≤ pkts.length ∧
        2 ^ 32 ≤ ((pkts.map Packet.payload).map length).sum) := by
      rw [length_flatMap_payload]
      exact fun hlarge => hsmall ⟨hlarge.1, hne, hlarge.2⟩
    rw [flatMap_def] at hread
    simp only [reassemble, hpayloads, bind, Except.bind, if_neg hsmall', hread]
    rfl

end Reassemble

/-! ### The reassembler -/

/-- The computation gives no network packet, and fails only in ways that are
caught. -/
def Drops {α : Type} (x : Except Failure (Option α)) : Prop :=
  FailsOnly Caught x ∧ ∀ a, x ≠ .ok (some a)

theorem drops_none {α : Type} : Drops (.ok none : Except Failure (Option α)) :=
  ⟨failsOnly_ok _, fun a ha => by cases ha⟩

theorem drops_error {α : Type} {failure : Failure} (h : Caught failure) :
    Drops (.error failure : Except Failure (Option α)) :=
  ⟨failsOnly_error.mpr h, fun a ha => by cases ha⟩

section Reassembler

variable {r : Reassembler} {pkt : Packet}

theorem failsOnly_readIndexAndCount (pkt : Packet) : FailsOnly Caught (readIndexAndCount pkt) := by
  have hread : ∀ f default, FailsOnly Caught (readOr pkt f default) := by
    intro f default
    rw [readOr]
    split
    · rename_i h
      exact failsOnly_get h _
    · exact failsOnly_ok _
  exact (hread _ _).bind fun _ _ => (hread _ _).bind fun _ _ => failsOnly_ok _

theorem receiveSingle_eq (pkt : Packet) :
    receiveSingle pkt =
      (reassemble [pkt]).map fun netPkt => some (netPkt, pkt) := by
  rw [receiveSingle, reassemble, mapM_cons, mapM_nil]
  cases pkt.getFragment with
  | error failure => rfl
  | ok payload =>
    simp only [bind, Except.bind, pure, Except.pure, length_singleton]
    rw [if_neg (by omega), flatten_singleton]
    cases readBlock payload with
    | error error | ok netPkt => rfl

theorem nReceivedFragments_eq_iff (pp : PartialPacket) :
    pp.nReceivedFragments = pp.fragCount ↔ pp.fragments.all (·.has .sequence) = true := by
  rw [pp.received, ← pp.sized, countP_eq_length, all_eq_true]

/-- What a packet with its sequence number does in a partial packet. -/
theorem addFragment_cases {key : Key} {fragIndex fragCount : ℕ} (hindex : fragIndex < fragCount)
    (hmultiple : ¬ (fragIndex = 0 ∧ fragCount = 1)) (hsequence : pkt.has .sequence)
    (hfragment : pkt.has .fragment) :
    (¬ r.Fills key fragIndex fragCount pkt ∧
      Drops (r.addFragment key fragIndex fragCount pkt hsequence hfragment).2) ∨
    (r.Fills key fragIndex fragCount pkt ∧
      ∃ first rest, (r.lookup key fragCount).fragments.set fragIndex pkt = first :: rest ∧
        Carrying (first :: rest) ∧
        (r.addFragment key fragIndex fragCount pkt hsequence hfragment).2 =
          (reassemble (first :: rest)).map fun netPkt => some (netPkt, first)) := by
  rw [addFragment, Fills]
  obtain ⟨pp, hpp⟩ : ∃ pp, r.lookup key fragCount = pp := ⟨_, rfl⟩
  rw [hpp]
  by_cases hcount : fragCount ≠ pp.fragCount
  · rw [if_pos hcount]
    exact .inl ⟨fun h => hcount h.1, drops_none⟩
  rw [if_neg hcount]
  have hcount := not_not.mp hcount
  by_cases hfree : (pp.slot fragIndex).has .sequence
  · rw [dif_pos hfree]
    exact .inl ⟨fun h => Bool.false_ne_true (h.2.1.symm.trans hfree), drops_none⟩
  have hlength : fragIndex < pp.fragments.length := by
    rw [pp.sized, ← hcount]
    exact hindex
  rw [dif_neg hfree, dif_pos hlength]
  obtain ⟨pp', hpp'⟩ : ∃ pp', pp.store fragIndex pkt hlength hfree hsequence hfragment = pp' :=
    ⟨_, rfl⟩
  have hfragments : pp.fragments.set fragIndex pkt = pp'.fragments := by
    rw [← hpp']
    rfl
  rw [hpp', hfragments, ← nReceivedFragments_eq_iff, complete]
  by_cases hall : pp'.nReceivedFragments = pp'.fragCount
  · refine .inr ⟨⟨hcount, Bool.eq_false_iff.mpr hfree, hall⟩, ?_⟩
    have htwo : 2 ≤ pp'.fragments.length := by
      rw [← hfragments, length_set]
      rw [pp.sized, ← hcount] at hlength ⊢
      omega
    have hcarrying : Carrying pp'.fragments := by
      intro p hp
      exact pp'.carries p hp (all_eq_true.mp ((nReceivedFragments_eq_iff pp').mp hall) p hp)
    have hslot : pp'.slot 0 = pp'.fragments.headD empty := by
      cases hcons : pp'.fragments with
      | nil | cons first rest => rw [PartialPacket.slot, hcons]; rfl
    have hreassembly : pp'.doReassembly = reassemble pp'.fragments := by
      simp only [PartialPacket.doReassembly, reassemble, htwo, true_and]
    rw [if_pos hall, hreassembly, hslot]
    cases hcons : pp'.fragments with
    | nil =>
      rw [hcons] at htwo
      cases htwo
    | cons first rest =>
      refine ⟨first, rest, rfl, hcons ▸ hcarrying, ?_⟩
      cases reassemble (first :: rest) with
      | error failure | ok netPkt => rfl
  · rw [if_neg hall]
    exact .inl ⟨fun h => hall h.2.2, drops_none⟩

/-- **What the reassembler does**: a packet completes its message, and then the
message is put together, or there is no network packet. -/
theorem receiveFragment_cases (r : Reassembler) (remoteEndpoint : UInt64)
    (hfragment : pkt.has .fragment) :
    (r.completed remoteEndpoint pkt = none ∧ Drops (r.receiveFragment remoteEndpoint pkt).2) ∨
    ∃ first rest, r.completed remoteEndpoint pkt = some (first :: rest) ∧
      Carrying (first :: rest) ∧
      (r.receiveFragment remoteEndpoint pkt).2 =
        (reassemble (first :: rest)).map fun netPkt => some (netPkt, first) := by
  rw [receiveFragment, completed, dif_pos hfragment]
  cases hread : readIndexAndCount pkt with
  | error failure => exact .inl ⟨rfl, drops_error (failsOnly_readIndexAndCount pkt failure hread)⟩
  | ok result =>
    obtain ⟨fragIndex, fragCount⟩ := result
    simp only
    by_cases hindex : fragCount ≤ fragIndex
    · rw [if_pos hindex, if_pos (.inl hindex)]
      exact .inl ⟨rfl, drops_none⟩
    by_cases hmax : r.nMaxFragments < fragCount
    · rw [if_neg hindex, if_pos hmax, if_pos (.inr hmax)]
      exact .inl ⟨rfl, drops_none⟩
    rw [if_neg hindex, if_neg hmax, if_neg (not_or.mpr ⟨hindex, hmax⟩)]
    by_cases hsingle : fragIndex = 0 ∧ fragCount = 1
    · rw [if_pos hsingle, if_pos hsingle]
      exact .inr ⟨pkt, [], rfl, forall_mem_singleton.mpr hfragment, receiveSingle_eq pkt⟩
    rw [if_neg hsingle, if_neg hsingle]
    by_cases hsequence : pkt.has .sequence
    · rw [dif_pos hsequence]
      cases hget : pkt.getSequence with
      | error failure =>
        exact .inl ⟨rfl, drops_error (failsOnly_get hsequence _ failure hget)⟩
      | ok sequence =>
        obtain ⟨hfills, hdrops⟩ | ⟨hfills, first, rest, hcons, hcarrying, hresult⟩ :=
          addFragment_cases (Nat.lt_of_not_le hindex) hsingle hsequence hfragment
        · exact .inl ⟨if_neg hfills, hdrops⟩
        · exact .inr ⟨first, rest, (if_pos hfills).trans (congrArg some hcons), hcarrying, hresult⟩
    · rw [dif_neg hsequence]
      have hfind : pkt.find .sequence = none := Option.not_isSome_iff_eq_none.mp hsequence
      rw [Packet.getSequence, Packet.get, hfind]
      exact .inl ⟨rfl, drops_none⟩

end Reassembler

/-! ### A network packet is complete -/

section NetPkt

variable {codec : Codec} {s : Service} {netPkt : WireBlock} {firstPkt : Packet}

/-- `wireEncode` has the elements of the packet, or none if it is a bare network
packet. -/
theorem wireEncode_cases (hpayload : firstPkt.payload ≠ []) :
    (∃ error, firstPkt.wireEncode = .error (.tlvError error)) ∨
    ∃ block elements, firstPkt.wireEncode = .ok (block, elements) ∧
      (elements = firstPkt.elements ∨ elements = []) := by
  rw [wireEncode]
  split
  · rename_i element helements
    split
    · rename_i htype
      have hvalue : element.value ≠ [] := by
        rw [Packet.payload, find, helements, find?_cons_of_pos (by simpa using htype)]
          at hpayload
        exact hpayload
      cases hparse : element.parse with
      | error error => exact .inl ⟨error, rfl⟩
      | ok blocks =>
        cases blocks with
        | nil => exact absurd hparse (Tlv.readElements_ne_nil hvalue)
        | cons block blocks => exact .inr ⟨block, [], rfl, .inr rfl⟩
    · exact .inr ⟨_, _, rfl, .inl rfl⟩
  · exact .inr ⟨_, _, rfl, .inl rfl⟩

/-- Without a `ValHeader` nothing is handed on. -/
theorem receiveNetPkt_of_none (codec : Codec) (s : Service) (netPkt : WireBlock)
    (hheader : firstPkt.find .valHeader = none) (hpayload : firstPkt.payload ≠ []) :
    (∃ error, s.receiveNetPkt codec netPkt firstPkt = .error (.tlvError error)) ∨
      s.receiveNetPkt codec netPkt firstPkt = .ok (s, none) := by
  obtain ⟨error, hencode⟩ | ⟨block, elements, hencode, helements⟩ := wireEncode_cases hpayload
  · refine .inl ⟨error, ?_⟩
    simp only [Service.receiveNetPkt, hencode, bind, Except.bind]
  · have hfind : elements.find? (fun e => e.type = Field.valHeader.tlvType) = none := by
      obtain rfl | rfl := helements
      · exact Option.map_eq_none_iff.mp hheader
      · rfl
    refine .inr ?_
    simp only [Service.receiveNetPkt, hencode, hfind, bind, Except.bind]
    rfl

/-- A `ValHeader` that cannot be decoded is an error that is caught. -/
theorem receiveNetPkt_of_some {value : List UInt8}
    (hheader : firstPkt.find .valHeader = some value) :
    s.receiveNetPkt codec netPkt firstPkt =
      (ValHeader.wireDecode ⟨[], [], [], [], codec.uninitialized⟩
        ⟨Field.valHeader.tlvType, value⟩).mapError .tlvError >>=
          s.handOn codec netPkt firstPkt := by
  have hencode := wireEncode_of_find (by decide) hheader
  have hfind := find?_of_find hheader
  simp only [Service.receiveNetPkt, hencode, hfind, bind, Except.bind]

end NetPkt

theorem toDecode_eq_some_iff {codec : Codec} {first firstPkt : Packet} {rest : List Packet}
    {netPkt : WireBlock} :
    toDecode codec (first :: rest) = some (netPkt, firstPkt) ↔
      (∀ p ∈ first :: rest, p.payload ≠ []) ∧
      readBlock ((first :: rest).flatMap Packet.payload) = .ok netPkt ∧
      (∃ value valH, first.find .valHeader = some value ∧
        ValHeader.wireDecode ⟨[], [], [], [], codec.uninitialized⟩
          ⟨Field.valHeader.tlvType, value⟩ = .ok valH) ∧ first = firstPkt := by
  rw [toDecode]
  by_cases hne : ∀ p ∈ first :: rest, p.payload ≠ []
  · rw [if_pos hne]
    cases hread : readBlock ((first :: rest).flatMap Packet.payload) with
    | error error => simp
    | ok block =>
      cases hheader : first.find .valHeader with
      | none => simp
      | some value =>
        cases hdecode : ValHeader.wireDecode ⟨[], [], [], [], codec.uninitialized⟩
          ⟨Field.valHeader.tlvType, value⟩ with
        | error error => simp [hdecode]
        | ok valH =>
          simp only [hdecode, Option.some.injEq, Prod.mk.injEq, Except.ok.injEq]
          constructor
          · rintro ⟨rfl, rfl⟩
            exact ⟨hne, rfl, ⟨value, valH, rfl, hdecode⟩, rfl⟩
          · rintro ⟨-, rfl, -, rfl⟩
            exact ⟨rfl, rfl⟩
  · rw [if_neg hne]
    exact ⟨fun h => (by cases h), fun h => absurd h.1 hne⟩

/-- Nothing is handed on, and failures are caught. -/
def HandsOnNothing (x : Except Failure (Service × Option ValPacket)) : Prop :=
  FailsOnly Caught x ∧ ∀ s d, x ≠ .ok (s, some d)

theorem handsOnNothing_none (s : Service) : HandsOnNothing (.ok (s, none)) :=
  ⟨failsOnly_ok _, fun s' d h => by cases h⟩

theorem handsOnNothing_error {failure : Failure} (h : Caught failure) :
    HandsOnNothing (.error failure) :=
  ⟨failsOnly_error.mpr h, fun s' d h => by cases h⟩

section Receive

variable {codec : Codec} {s : Service} {remoteEndpoint : UInt64} {packet : WireBlock}

theorem processReassembled_of_drops
    {result : Reassembler × Except Failure (Option (WireBlock × Packet))}
    (h : Drops result.2) : HandsOnNothing (s.processReassembled codec result).2 := by
  obtain ⟨r, x⟩ := result
  cases x with
  | error failure => exact handsOnNothing_error (failsOnly_error.mp h.1)
  | ok netPkt =>
    cases netPkt with
    | none => exact handsOnNothing_none _
    | some netPkt => exact absurd rfl (h.2 netPkt)

variable {first : Packet}

theorem processReassembled_of_map
    {result : Reassembler × Except Failure (Option (WireBlock × Packet))}
    {x : Except Failure WireBlock} (h : result.2 = x.map fun netPkt => some (netPkt, first)) :
    (s.processReassembled codec result).2 =
      x >>= fun netPkt => Service.receiveNetPkt codec { s with reassembler := result.1 } netPkt
        first := by
  obtain ⟨r, y⟩ := result
  cases x with
  | error failure | ok netPkt =>
    cases h
    rfl

/-- **What the `try` block does**: the block completes a message, whose network
packet is then processed, or nothing is handed on. -/
theorem tryReceivePacket_cases (codec : Codec) (s : Service) (remoteEndpoint : UInt64)
    (packet : WireBlock) :
    (s.completed remoteEndpoint packet = none ∧
      HandsOnNothing (s.tryReceivePacket codec remoteEndpoint packet).2) ∨
    ∃ (s' : Service) (first : Packet) (rest : List Packet),
      s.completed remoteEndpoint packet = some (first :: rest) ∧
      Carrying (first :: rest) ∧ s'.options = s.options ∧
      (s.tryReceivePacket codec remoteEndpoint packet).2 =
        reassemble (first :: rest) >>= fun netPkt => s'.receiveNetPkt codec netPkt first := by
  rw [Service.tryReceivePacket, Service.completed]
  cases hdecode : wireDecode packet with
  | error error => exact .inl ⟨rfl, handsOnNothing_error (caught_tlvError error)⟩
  | ok pkt =>
    simp only
    by_cases hfragment : pkt.has .fragment
    · simp only [hfragment, Bool.not_true, Bool.false_eq_true, if_false]
      by_cases hallowed : (pkt.has .fragIndex || pkt.has .fragCount) &&
          !s.options.allowReassembly
      · rw [if_pos hallowed, if_pos hallowed]
        exact .inl ⟨rfl, handsOnNothing_none s⟩
      rw [if_neg hallowed, if_neg hallowed]
      obtain ⟨hnone, hdrops⟩ | ⟨first, rest, hsome, hcarrying, hresult⟩ :=
        receiveFragment_cases s.reassembler remoteEndpoint hfragment
      · exact .inl ⟨hnone, processReassembled_of_drops hdrops⟩
      · exact .inr ⟨{ s with
            reassembler := (s.reassembler.receiveFragment remoteEndpoint pkt).1 },
          first, rest, hsome, hcarrying, rfl, processReassembled_of_map hresult⟩
    · rw [Bool.eq_false_iff.mpr hfragment]
      exact .inl ⟨rfl, handsOnNothing_none s⟩

/-- What becomes of a complete network packet that gets to the decoders. -/
theorem receiveNetPkt_of_toDecode {firstPkt : Packet} {rest : List Packet} {netPkt : WireBlock}
    (h : toDecode codec (first :: rest) = some (netPkt, firstPkt)) :
    ∃ valH, s.receiveNetPkt codec netPkt first = s.handOn codec netPkt firstPkt valH := by
  obtain ⟨-, -, ⟨value, valH, hheader, hdecode⟩, rfl⟩ := toDecode_eq_some_iff.mp h
  refine ⟨valH, ?_⟩
  rw [receiveNetPkt_of_some hheader, hdecode]
  rfl

/-- A complete network packet that does not get there is dropped. -/
theorem receiveNetPkt_of_toDecode_none {rest : List Packet} {netPkt : WireBlock}
    (hreassemble : reassemble (first :: rest) = .ok netPkt)
    (h : ∀ firstPkt, toDecode codec (first :: rest) ≠ some (netPkt, firstPkt)) :
    HandsOnNothing (s.receiveNetPkt codec netPkt first) := by
  obtain ⟨hne, -, hread⟩ := reassemble_eq_ok_iff.mp hreassemble
  cases hheader : first.find .valHeader with
  | none =>
    obtain ⟨error, herror⟩ | hnone := receiveNetPkt_of_none codec s netPkt
      hheader (hne first (mem_cons_self ..))
    · rw [herror]
      exact handsOnNothing_error (caught_tlvError error)
    · rw [hnone]
      exact handsOnNothing_none s
  | some value =>
    rw [receiveNetPkt_of_some hheader]
    cases hdecode : ValHeader.wireDecode ⟨[], [], [], [], codec.uninitialized⟩
      ⟨Field.valHeader.tlvType, value⟩ with
    | error error => exact handsOnNothing_error (caught_tlvError error)
    | ok valH =>
      exact absurd (toDecode_eq_some_iff.mpr ⟨hne, hread, ⟨value, valH, hheader, hdecode⟩, rfl⟩)
        (h first)

/-- **What `doReceivePacket` does not cope with.** -/
theorem failsOnly_tryReceivePacket_iff :
    FailsOnly Caught (s.tryReceivePacket codec remoteEndpoint packet).2 ↔
      ¬ Hazard codec s remoteEndpoint packet := by
  obtain ⟨hnone, hnothing⟩ | ⟨s', first, rest, hsome, hcarrying, hoptions, htry⟩ :=
    tryReceivePacket_cases codec s remoteEndpoint packet
  · refine ⟨fun _ => ?_, fun _ => hnothing.1⟩
    rintro ⟨pkts, hsome, -⟩
    cases hnone.symm.trans hsome
  rw [htry]
  constructor
  · rintro h ⟨pkts, hsome', hhazard⟩
    cases hsome.symm.trans hsome'
    by_cases hoverflows : Overflows (first :: rest)
    · obtain ⟨failure, hfailure, hnot⟩ := reassemble_of_overflows hoverflows
      rw [hfailure] at h
      exact hnot (failsOnly_error.mp h)
    obtain ⟨netPkt, firstPkt, htoDecode, hbad⟩ := hhazard.resolve_left hoverflows
    obtain ⟨hne, hread, -⟩ := toDecode_eq_some_iff.mp htoDecode
    obtain ⟨valH, hreceive⟩ := receiveNetPkt_of_toDecode (s := s') htoDecode
    have hdecode : FailsOnly Caught (decodeNetPkt codec s.options netPkt firstPkt) := by
      intro failure hfailure
      refine h failure ?_
      rw [reassemble_eq_ok_iff.mpr ⟨hne, hoverflows, hread⟩]
      refine hreceive.trans ?_
      rw [Service.handOn, hoptions, hfailure]
      rfl
    exact failsOnly_decodeNetPkt_iff.mp hdecode hbad
  · intro h
    have hoverflows : ¬ Overflows (first :: rest) := fun hoverflows => h ⟨_, hsome, .inl hoverflows⟩
    refine (failsOnly_reassemble hcarrying hoverflows).bind fun netPkt hreassemble => ?_
    by_cases htoDecode : ∃ firstPkt, toDecode codec (first :: rest) = some (netPkt, firstPkt)
    · obtain ⟨firstPkt, htoDecode⟩ := htoDecode
      obtain ⟨valH, hreceive⟩ := receiveNetPkt_of_toDecode (s := s') htoDecode
      rw [hreceive, Service.handOn, hoptions]
      refine FailsOnly.bind ?_ fun _ _ => failsOnly_ok _
      exact failsOnly_decodeNetPkt_iff.mpr
        fun hbad => h ⟨_, hsome, .inr ⟨netPkt, firstPkt, htoDecode, hbad⟩⟩
    · exact (receiveNetPkt_of_toDecode_none hreassemble (not_exists.mp htoDecode)).1

/-- A packet with a network packet in it is handed on only if the decoder has
accepted it. -/
theorem decodeNetPkt_of_handed {s' : Service} {d : ValPacket}
    (h : (s.tryReceivePacket codec remoteEndpoint packet).2 = .ok (s', some d))
    (hpayload : d.payload ≠ .notSet) :
    ∃ pkts netPkt firstPkt n payload, s.completed remoteEndpoint packet = some pkts ∧
      toDecode codec pkts = some (netPkt, firstPkt) ∧
      decodeNetPkt codec s.options netPkt firstPkt = .ok (n, some payload) := by
  obtain ⟨-, hnothing⟩ | ⟨s₁, first, rest, hsome, -, hoptions, htry⟩ :=
    tryReceivePacket_cases codec s remoteEndpoint packet
  · exact absurd h (hnothing.2 s' d)
  rw [htry] at h
  cases hreassemble : reassemble (first :: rest) with
  | error failure =>
    rw [hreassemble] at h
    cases h
  | ok netPkt =>
    rw [hreassemble] at h
    have h : s₁.receiveNetPkt codec netPkt first = .ok (s', some d) := h
    by_cases htoDecode : ∃ firstPkt, toDecode codec (first :: rest) = some (netPkt, firstPkt)
    · obtain ⟨firstPkt, htoDecode⟩ := htoDecode
      obtain ⟨valH, hreceive⟩ := receiveNetPkt_of_toDecode (s := s₁) htoDecode
      rw [hreceive, Service.handOn, hoptions] at h
      cases hdecode : decodeNetPkt codec s.options netPkt firstPkt with
      | error failure =>
        rw [hdecode] at h
        cases h
      | ok result =>
        obtain ⟨n, payload⟩ := result
        rw [hdecode] at h
        cases h
        cases payload with
        | none => exact absurd rfl hpayload
        | some payload => exact ⟨_, netPkt, firstPkt, n, payload, hsome, htoDecode, hdecode⟩
    · exact absurd h
        ((receiveNetPkt_of_toDecode_none hreassemble (not_exists.mp htoDecode)).2 s' d)

end Receive

/-! ### The forwarder -/

/-- The text whose characters are the octets. -/
def textOf (octets : List UInt8) : String :=
  String.ofList (octets.map fun octet => Char.ofNat octet.toNat)

/-- The packet as the forwarder reads it. -/
def ValPacket.toVal (valPacket : ValPacket) : ValProofs.ValPacket where
  valHeader :=
    ⟨textOf valPacket.valHeader.sa, textOf valPacket.valHeader.da,
      textOf valPacket.valHeader.phPos, textOf valPacket.valHeader.rn, valPacket.valHeader.hopC⟩
  payload :=
    match valPacket.payload with
    | .notSet => .notSet
    | .interest interest _ tags =>
        .interest { interest with nextHopFaceId := tags.nextHopFaceId.map UInt64.toNat }
    | .data data _ tags =>
        .data { data with congestionMark := tags.congestionMark.map UInt64.toNat }

/-- The forwarder after the link service of the face has received a block. -/
def afterReceive (v : ValForwarder) (face : ℕ) : Option ValPacket → ValForwarder
  | none => v
  | some valPacket => (v.onReceivedValPacket face valPacket.toVal).1

/-- The entries of all tables are the same. -/
def SameTables (v v' : ValForwarder) : Prop :=
  v'.pending = v.pending ∧ v'.ifnt = v.ifnt ∧ v'.dfnt = v.dfnt ∧ v'.f2a = v.f2a

/-- A packet without a network packet only changes a counter. -/
theorem sameTables_notSet (v : ValForwarder) (face : ℕ) {valPacket : ValPacket}
    (h : valPacket.payload = .notSet) : SameTables v (afterReceive v face (some valPacket)) := by
  have hpayload : valPacket.toVal.payload = .notSet := by
    rw [ValPacket.toVal, h]
  have hfind : v.pending.findMatch valPacket.toVal = none := by
    rw [Pft.Pending.findMatch, find?_eq_none]
    intro p _
    simp [Pft.Pending.isMatch, ValPacket.sameNdnPacket, hpayload]
  have hreceive : v.onReceivedValPacket face valPacket.toVal =
      ({ v with invalidIN := v.invalidIN + 1 }, none) := by
    simp only [ValForwarder.onReceivedValPacket, Pft.Pending.preProcessing_none hfind, hpayload]
  rw [afterReceive, hreceive]
  exact ⟨rfl, rfl, rfl, rfl⟩

/-- The block completes a message whose Interest or Data the decoder rejects: it
returns a null pointer or throws. -/
def Rejected (codec : Codec) (s : Service) (remoteEndpoint : UInt64) (packet : WireBlock) : Prop :=
  ∃ pkts netPkt firstPkt, s.completed remoteEndpoint packet = some pkts ∧
    toDecode codec pkts = some (netPkt, firstPkt) ∧
    (netPkt.type = tlvInterest ∨ netPkt.type = tlvData) ∧
    ∀ n payload, decodeNetPkt codec s.options netPkt firstPkt ≠ .ok (n, some payload)

section Safe

variable {codec : Codec} {s s' : Service} {remoteEndpoint : UInt64} {packet : WireBlock}

theorem exists_doReceivePacket_iff :
    (∃ s' handed, s.doReceivePacket codec remoteEndpoint packet = .ok (s', handed)) ↔
      FailsOnly Caught (s.tryReceivePacket codec remoteEndpoint packet).2 := by
  rw [Service.doReceivePacket]
  obtain ⟨s₁, result⟩ := s.tryReceivePacket codec remoteEndpoint packet
  cases result with
  | ok result => exact ⟨fun _ => failsOnly_ok _, fun _ => ⟨result.1, result.2, rfl⟩⟩
  | error failure =>
    rw [failsOnly_error]
    cases failure with
    | tlvError error => exact ⟨fun _ => caught_tlvError error, fun _ => ⟨_, _, rfl⟩⟩
    | exception what | assertion expression
    | undefined what => exact ⟨fun ⟨_, _, h⟩ => (by cases h), False.elim⟩

theorem tryReceivePacket_of_handed {d : ValPacket}
    (h : s.doReceivePacket codec remoteEndpoint packet = .ok (s', some d)) :
    (s.tryReceivePacket codec remoteEndpoint packet).2 = .ok (s', some d) := by
  rw [Service.doReceivePacket] at h
  generalize s.tryReceivePacket codec remoteEndpoint packet = result at h ⊢
  obtain ⟨s₁, result⟩ := result
  cases result with
  | ok result => exact h
  | error failure => cases failure <;> cases h

/-- What a decoder has rejected does not get into a table. -/
theorem sameTables_of_rejected {handed : Option ValPacket}
    (hrejected : Rejected codec s remoteEndpoint packet)
    (h : s.doReceivePacket codec remoteEndpoint packet = .ok (s', handed)) (v : ValForwarder)
    (face : ℕ) : SameTables v (afterReceive v face handed) := by
  cases handed with
  | none => exact ⟨rfl, rfl, rfl, rfl⟩
  | some d =>
    refine sameTables_notSet v face ?_
    by_contra hpayload
    obtain ⟨pkts, netPkt, firstPkt, n, payload, hsome, htoDecode, hdecode⟩ :=
      decodeNetPkt_of_handed (tryReceivePacket_of_handed h) hpayload
    obtain ⟨pkts', netPkt', firstPkt', hsome', htoDecode', -, hnot⟩ := hrejected
    cases hsome.symm.trans hsome'
    cases htoDecode.symm.trans htoDecode'
    exact hnot n payload hdecode

end Safe

/-- An LpPacket with a `Nack`, a `ValHeader` and an Interest. -/
def nackPacket : Packet :=
  ⟨[⟨Field.nack.tlvType, []⟩,
    ⟨Field.valHeader.tlvType, (ValHeader.mk [65] [66] [] [] 9).wireEncode.value⟩,
    ⟨Field.fragment.tlvType, Block.wire ⟨tlvInterest, [7, 0]⟩⟩]⟩

end ValProofs.Link
