import ValProofs.Lib.System
import ValProofs.Link.RoundTrip

/-!
Many link services that send, and one that hears them all.

The device of the receiver does not say who sent a packet: all packets come from
the remote endpoint `0`. So the reassembler tells the fragments of two senders
apart by their sequence numbers only, and those of all senders start at the same
number. The runs of the medium have every loss, duplication and interleaving of
the packets on it.

Two senders can have their fragments put together, which makes a packet that no
one sent. It does not happen in runs in which a fragment never arrives while
fragments of another packet wait in the partial packet it goes to.
-/

namespace ValProofs.Link

open Lib Reassembler Function

/-- A VAL packet that a sender has sent, with its frames. -/
structure Transmission (ι : Type) where
  node : ι
  packet : ValPacket
  frames : List WireBlock

/-- The senders, what they have sent, and the receiver with what it has handed to
its forwarder. -/
structure Medium (ι : Type) where
  senders : ι → Service
  sent : List (Transmission ι)
  receiver : Service
  handed : List ValPacket

/-- The fragments that the packet joins in the reassembler: those that wait in
its partial packet, unless the packet is dropped. -/
def Reassembler.joined (r : Reassembler) (remoteEndpoint : UInt64) (packet : Packet) :
    List Packet :=
  match readIndexAndCount packet, packet.getSequence with
  | .ok (fragIndex, fragCount), .ok sequence =>
      match r.partialPackets (remoteEndpoint, sequence - UInt64.ofNat fragIndex) with
      | none => []
      | some pp =>
          if fragCount ≠ pp.fragCount || (pp.slot fragIndex).has .sequence then []
          else pp.fragments.filter (·.has .sequence)
  | _, _ => []

/-- The fragments that a frame joins if it arrives. -/
def Service.joined (s : Service) (packet : WireBlock) : List Packet :=
  match Packet.wireDecode packet with
  | .error _ => []
  | .ok pkt => s.reassembler.joined 0 pkt

namespace Medium

variable {ι : Type} {codec : Codec}

inductive Event (ι : Type) (codec : Codec)
  /-- The node sends the VAL packet. -/
  | send (node : ι) (env : Environment) (v : Sendable codec)
  /-- The receiver hears the frame. -/
  | arrive (packet : WireBlock)
  /-- The timer of a partial packet expires. -/
  | timeout (key : Key)

def Init (w : Medium ι) : Prop :=
  (∀ node, w.senders node = .initial .stackHelper) ∧ w.sent = [] ∧
    w.receiver = .initial .stackHelper ∧ w.handed = []

/-- The devices have an MTU, and what arrives has been sent. -/
def guard (w : Medium ι) : Event ι codec → Prop
  | .send _ env _ => env.mtu ≠ none
  | .arrive packet => ∃ t ∈ w.sent, packet ∈ t.frames
  | .timeout _ => True

def next [DecidableEq ι] (w : Medium ι) : Event ι codec → Medium ι
  | .send node env v =>
      match (w.senders node).doSendValPacket env v.packet with
      | .error _ => w
      | .ok (s, frames) =>
          { w with
            senders := Function.update w.senders node s
            sent := w.sent ++ [⟨node, v.packet, frames⟩] }
  | .arrive packet =>
      match w.receiver.doReceivePacket codec 0 packet with
      | .error _ => w
      | .ok (s, handed) => { w with receiver := s, handed := w.handed ++ handed.toList }
  | .timeout key =>
      { w with receiver := { w.receiver with
          reassembler := w.receiver.reassembler.timeoutPartialPacket key } }

/-- The medium as a transition system. -/
def system (ι : Type) [DecidableEq ι] (codec : Codec) : System (Medium ι) (Event ι codec) where
  init := Init
  guard := guard
  next := next

/-- A frame that arrives belongs to one packet with all the fragments it joins in
the receiver. -/
def Unmixed (w : Medium ι) : Event ι codec → Prop
  | .arrive packet => ∃ t ∈ w.sent, packet ∈ t.frames ∧
      ∀ p ∈ w.receiver.joined packet, frame p ∈ t.frames
  | _ => True

/-! ### The invariant -/

/-- The frames of a transmission are those of a packet that is sent whole, or of
a message, or there are none. -/
def Described (codec : Codec) (t : Transmission ι) : Prop :=
  t.frames = [] ∨
    ∃ (v : Sendable codec) (wire : WireBlock) (pkts : List Packet) (id : UInt64),
      t.packet = v.packet ∧ v.packet.payload.wire = some wire ∧ t.frames = pkts.map frame ∧
      Emitted (lpFields .stackHelper v.packet.valHeader wire.octets v.packet.payload.tags)
        wire.octets id 400 pkts ∧
      ∀ pkt ∈ pkts, Sound pkt

/-- The transmission sends the message. -/
structure Sends (codec : Codec) (t : Transmission ι) (m : Message) : Prop where
  conveys : ∃ (v : Sendable codec) (wire : WireBlock), t.packet = v.packet ∧ Conveys v wire m
  frames : t.frames = (List.range m.fragCount).map fun i => frame (m.packet i)

/-- What holds in every state in which no fragments have been mixed. -/
structure Intact (codec : Codec) (w : Medium ι) : Prop where
  senders : ∀ node, (w.senders node).options = .stackHelper
  sent : ∀ t ∈ w.sent, Described codec t
  options : w.receiver.options = .stackHelper
  nMaxFragments : w.receiver.reassembler.nMaxFragments = 400
  /-- A partial packet holds fragments of one message. -/
  waiting : ∀ key pp, w.receiver.reassembler.partialPackets key = some pp →
    ∃ t ∈ w.sent, ∃ m held, Sends codec t m ∧ m.Holds pp held
  /-- What was handed on has been sent. -/
  handed : ∀ d ∈ w.handed, ∃ t ∈ w.sent, Delivers t.packet d

theorem intact_of_init {w : Medium ι} (h : w.Init) : Intact codec w := by
  obtain ⟨hsenders, hsent, hreceiver, hhanded⟩ := h
  refine ⟨fun node => by rw [hsenders]; rfl, by simp [hsent], by rw [hreceiver]; rfl,
    by rw [hreceiver]; rfl, fun key pp hpp => ?_, by simp [hhanded]⟩
  rw [hreceiver] at hpp
  cases hpp

/-- Sending only adds to what is on the medium. -/
theorem Intact.send [DecidableEq ι] {w : Medium ι} (h : Intact codec w) (node : ι)
    {env : Environment} (hmtu : env.mtu ≠ none) (v : Sendable codec) :
    Intact codec (w.next (.send node env v)) := by
  rw [next]
  split
  · exact h
  · rename_i s frames hsend
    obtain ⟨hoptions, hframes⟩ := doSendValPacket_cases (h.senders node) hmtu hsend
    have hdescribed : Described codec (⟨node, v.packet, frames⟩ : Transmission ι) := by
      obtain hnil | ⟨wire, pkts, hwire, rfl, hemitted, hsound⟩ := hframes
      · exact .inl hnil
      · exact .inr ⟨v, wire, pkts, _, rfl, hwire, rfl, hemitted, hsound⟩
    have hmem : ∀ t ∈ w.sent, t ∈ w.sent ++ [⟨node, v.packet, frames⟩] :=
      fun t ht => List.mem_append_left _ ht
    have hsenders : ∀ node', (update w.senders node s node').options = .stackHelper := by
      intro node'
      by_cases hnode : node' = node
      · rw [hnode, update_self, hoptions, h.senders]
      · rw [update_of_ne hnode, h.senders]
    refine ⟨hsenders, fun t ht => ?_, h.options, h.nMaxFragments, fun key pp hpp => ?_,
      fun d hd => ?_⟩
    · obtain ht | ht := List.mem_append.mp ht
      · exact h.sent t ht
      · exact List.mem_singleton.mp ht ▸ hdescribed
    · obtain ⟨t, ht, hholds⟩ := h.waiting key pp hpp
      exact ⟨t, hmem t ht, hholds⟩
    · obtain ⟨t, ht, hdelivers⟩ := h.handed d hd
      exact ⟨t, hmem t ht, hdelivers⟩

theorem Intact.timeout [DecidableEq ι] {w : Medium ι} (h : Intact codec w) (key : Key) :
    Intact codec (w.next (.timeout key : Event ι codec)) where
  senders := h.senders
  sent := h.sent
  options := h.options
  nMaxFragments := h.nMaxFragments
  waiting := by
    intro key' pp hpp
    by_cases hkey : key' = key
    · rw [hkey] at hpp
      cases (partialPackets_update_self ..).symm.trans hpp
    · exact h.waiting key' pp ((partialPackets_update_of_ne hkey ..).symm.trans hpp)
  handed := h.handed

/-! ### A frame arrives -/

/-- What the receiver makes of a frame of the transmission: a partial packet that
is new or has changed holds fragments of its message, and what is handed on is
its packet. -/
structure Received (codec : Codec) (t : Transmission ι) (s s' : Service)
    (handed : Option ValPacket) : Prop where
  options : s'.options = s.options
  nMaxFragments : s'.reassembler.nMaxFragments = s.reassembler.nMaxFragments
  waiting : ∀ key pp, s'.reassembler.partialPackets key = some pp →
    s.reassembler.partialPackets key = some pp ∨ ∃ m held, Sends codec t m ∧ m.Holds pp held
  handed : ∀ d ∈ handed, Delivers t.packet d

theorem Intact.arrive [DecidableEq ι] {w : Medium ι} (h : Intact codec w) {t : Transmission ι}
    (ht : t ∈ w.sent) {packet : WireBlock} {s : Service} {handed : Option ValPacket}
    (hreceive : w.receiver.doReceivePacket codec 0 packet = .ok (s, handed))
    (hreceived : Received codec t w.receiver s handed) :
    Intact codec (w.next (.arrive packet : Event ι codec)) := by
  rw [next, hreceive]
  refine ⟨h.senders, h.sent, hreceived.options.trans h.options,
    hreceived.nMaxFragments.trans h.nMaxFragments, fun key pp hpp => ?_, fun d hd => ?_⟩
  · obtain hold | hnew := hreceived.waiting key pp hpp
    · exact h.waiting key pp hold
    · exact ⟨t, ht, hnew⟩
  · obtain hd | hd := List.mem_append.mp hd
    · exact h.handed d hd
    · exact ⟨t, ht, hreceived.handed d (Option.mem_toList.mp hd)⟩

section Message

variable {w : Medium ι} {t : Transmission ι} {v : Sendable codec} {wire : WireBlock} {m : Message}
  {i : ℕ} {r : Reassembler}

theorem joined_packet (hi : i < m.fragCount) (remoteEndpoint : UInt64) :
    r.joined remoteEndpoint (m.packet i) =
      match r.partialPackets (remoteEndpoint, m.id) with
      | none => []
      | some pp =>
        if m.fragCount ≠ pp.fragCount || (pp.slot i).has .sequence then []
        else pp.fragments.filter (·.has .sequence) := by
  have hid : m.id + UInt64.ofNat i - UInt64.ofNat i = m.id := by
    rw [UInt64.add_sub_cancel]
  simp only [joined, Message.readIndexAndCount_packet hi, Message.getSequence_packet hi, hid]

/-- A fragment is dropped if the partial packet under its key has another number
of slots, or has its slot taken. -/
theorem addFragment_of_dropped {key : Key} {pp : PartialPacket} (hi : i < m.fragCount)
    (hpp : r.partialPackets key = some pp)
    (hdropped : m.fragCount ≠ pp.fragCount ∨ (pp.slot i).has .sequence) :
    r.addFragment key i m.fragCount (m.packet i) (Message.has_sequence hi)
      (Message.has_fragment hi) = (r, .ok none) := by
  have hlookup : r.lookup key m.fragCount = pp := by
    rw [lookup, hpp]
    rfl
  rw [addFragment, hlookup]
  by_cases hcount : m.fragCount ≠ pp.fragCount
  · exact if_pos hcount
  · rw [if_neg hcount]
    exact dif_pos (hdropped.resolve_left hcount)

/-- Fragments that are frames of the message as well are its fragments. -/
theorem packet_eq_of_frame {m' : Message} {v' : Sendable codec} {wire' : WireBlock}
    (hconveys : Conveys v wire m) (hconveys' : Conveys v' wire' m') (hi : i < m'.fragCount)
    (hframe : frame (m'.packet i) ∈ (List.range m.fragCount).map fun j => frame (m.packet j)) :
    m'.packet i = m.packet i := by
  obtain ⟨j, hj, heq⟩ := List.mem_map.mp hframe
  have hj := List.mem_range.mp hj
  have hpacket := frame_injective (hconveys.sound j hj) (hconveys'.sound i hi) heq
  have hread := Message.readIndexAndCount_packet hj
  rw [hpacket, Message.readIndexAndCount_packet hi] at hread
  obtain rfl : i = j := congrArg Prod.fst (Except.ok.inj hread)
  exact hpacket.symm

/-- The partial packet a fragment goes to holds fragments of the same message, or
the fragment is dropped. -/
theorem Intact.tracked (h : Intact codec w) (hconveys : Conveys v wire m)
    (hframes : t.frames = (List.range m.fragCount).map fun i => frame (m.packet i))
    (hi : i < m.fragCount)
    (hjoined : ∀ p ∈ w.receiver.reassembler.joined 0 (m.packet i), frame p ∈ t.frames) :
    (∃ held, m.Tracked w.receiver.reassembler (0, m.id) held) ∨
    w.receiver.reassembler.addFragment (0, m.id) i m.fragCount (m.packet i)
      (Message.has_sequence hi) (Message.has_fragment hi) =
        (w.receiver.reassembler, .ok none) := by
  cases hpp : w.receiver.reassembler.partialPackets (0, m.id) with
  | none => exact .inl ⟨∅, Message.tracked_none hpp⟩
  | some pp =>
    by_cases hdropped : m.fragCount ≠ pp.fragCount ∨ (pp.slot i).has .sequence
    · exact .inr (addFragment_of_dropped hi hpp hdropped)
    · obtain ⟨hcount, hfree⟩ := not_or.mp hdropped
      have hcount := not_not.mp hcount
      rw [joined_packet hi, hpp] at hjoined
      simp only [ne_eq, hcount, not_true, decide_false, hfree, Bool.or_self, if_false,
        Bool.false_eq_true] at hjoined
      obtain ⟨t', -, m', held, ⟨⟨v', wire', -, hconveys'⟩, -⟩, hholds⟩ := h.waiting _ _ hpp
      have hpacket : ∀ j ∈ held, m'.packet j = m.packet j := by
        intro j hj
        have hj' := hholds.lt j hj
        have hlength : j < pp.fragments.length := by
          rw [pp.sized, hholds.fragCount]
          exact hj'
        have hslot := (PartialPacket.slot_eq hlength).symm.trans (hholds.taken j hj)
        refine packet_eq_of_frame hconveys hconveys' hj' (hframes ▸ hjoined _ ?_)
        exact List.mem_filter.mpr ⟨hslot ▸ List.getElem_mem hlength, Message.has_sequence hj'⟩
      refine .inl ⟨held, ?_⟩
      rw [Message.Tracked, lookup, hpp]
      exact {
        fragCount := hcount.symm
        received := hholds.received
        lt := fun j hj => by rw [hcount, hholds.fragCount]; exact hholds.lt j hj
        taken := fun j hj => (hholds.taken j hj).trans (hpacket j hj)
        free := hholds.free }

theorem received_dropped (t : Transmission ι) (s : Service) : Received codec t s s none where
  options := rfl
  nMaxFragments := rfl
  waiting := fun _ _ hpp => .inl hpp
  handed := fun _ hd => by cases hd

/-- What waits after a change under one key. -/
theorem waiting_update {key : Key} {new : Option PartialPacket}
    (hnew : ∀ pp, new = some pp → ∃ m held, Sends codec t m ∧ m.Holds pp held) :
    ∀ key' pp, (r.update key new).partialPackets key' = some pp →
      r.partialPackets key' = some pp ∨ ∃ m held, Sends codec t m ∧ m.Holds pp held := by
  intro key' pp hpp
  by_cases hkey : key' = key
  · rw [hkey, partialPackets_update_self] at hpp
    exact .inr (hnew pp hpp)
  · rw [partialPackets_update_of_ne hkey] at hpp
    exact .inl hpp

/-- A fragment of a message arrives. -/
theorem Intact.receive_message (h : Intact codec w) (hpacket : t.packet = v.packet)
    (hconveys : Conveys v wire m) (hmax : m.fragCount ≤ 400)
    (hframes : t.frames = (List.range m.fragCount).map fun i => frame (m.packet i))
    (hi : i < m.fragCount)
    (hjoined : ∀ p ∈ w.receiver.reassembler.joined 0 (m.packet i), frame p ∈ t.frames) :
    ∃ s handed, w.receiver.doReceivePacket codec 0 (frame (m.packet i)) = .ok (s, handed) ∧
      Received codec t w.receiver s handed := by
  have hmax' : m.fragCount ≤ w.receiver.reassembler.nMaxFragments := by
    rw [h.nMaxFragments]
    exact hmax
  have hsends : Sends codec t m := ⟨⟨v, wire, hpacket, hconveys⟩, hframes⟩
  obtain ⟨held, htracked⟩ | hdropped := h.tracked hconveys hframes hi hjoined
  · by_cases hmem : i ∈ held
    · exact ⟨_, _, doReceivePacket_of_mem h.options hconveys hmax' hi htracked hmem,
        received_dropped t _⟩
    by_cases hcard : (insert i held).card = m.fragCount
    · obtain ⟨s, d, hreceive, hdelivers, hoptions, hreassembler⟩ :=
        doReceivePacket_of_card h.options hconveys hmax' hi htracked hmem hcard
      refine ⟨s, some d, hreceive, hoptions, by rw [hreassembler]; rfl, ?_, ?_⟩
      · rw [hreassembler]
        exact waiting_update fun pp hpp => by cases hpp
      · intro d' hd'
        cases hd'
        exact hpacket ▸ hdelivers
    · obtain ⟨pp, hholds, hreceive⟩ :=
        doReceivePacket_of_card_ne h.options hconveys hmax' hi htracked hmem hcard
      refine ⟨_, none, hreceive, rfl, rfl, ?_, fun _ hd => by cases hd⟩
      refine waiting_update fun pp' hpp' => ?_
      cases hpp'
      exact ⟨m, _, hsends, hholds⟩
  · refine ⟨w.receiver, none, ?_, received_dropped t _⟩
    rw [Service.doReceivePacket, tryReceivePacket_message h.options hconveys hmax' hi, hdropped]
    rfl

end Message

/-- A frame arrives that belongs to one packet with the fragments it joins. -/
theorem Intact.unmixed [DecidableEq ι] {w : Medium ι} (h : Intact codec w) {packet : WireBlock}
    (hunmixed : w.Unmixed (.arrive packet : Event ι codec)) :
    Intact codec (w.next (.arrive packet : Event ι codec)) := by
  obtain ⟨t, ht, hmem, hjoined⟩ := hunmixed
  obtain hnil | ⟨v, wire, pkts, id, hpacket, hwire, hframes, hemitted, hsound⟩ := h.sent t ht
  · rw [hnil] at hmem
    cases hmem
  rw [hframes] at hmem
  obtain ⟨pkt, hpkt, rfl⟩ := List.mem_map.mp hmem
  have hdecode : Packet.wireDecode (frame pkt) = .ok pkt :=
    Packet.wireDecode_block (hsound pkt hpkt).wellFormed (hsound pkt hpkt).small
  simp only [Service.joined, hdecode] at hjoined
  cases hemitted with
  | single pkt' hheads hfragment hindex hcount =>
    obtain rfl := List.mem_singleton.mp hpkt
    obtain ⟨s, d, hreceive, hdelivers, hoptions, hreassembler⟩ := doReceivePacket_single
      ⟨hwire, hsound pkt hpkt, hheads, hfragment, hindex, hcount⟩ h.options
      (by rw [h.nMaxFragments]; decide) 0
    refine h.arrive ht hreceive ⟨hoptions, by rw [hreassembler], fun key pp hpp => ?_,
      fun d' hd' => ?_⟩
    · rw [hreassembler] at hpp
      exact .inl hpp
    · cases hd'
      exact hpacket ▸ hdelivers
  | message m hheads hflatten hid hmax =>
    have hconveys : Conveys v wire m :=
      ⟨hwire, hheads, hflatten, fun i hi =>
        hsound _ (List.mem_map_of_mem (List.mem_range.mpr hi))⟩
    obtain ⟨i, hi, rfl⟩ := List.mem_map.mp hpkt
    obtain ⟨s, handed, hreceive, hreceived⟩ := h.receive_message hpacket hconveys hmax
      (by rw [hframes, List.map_map]; rfl) (List.mem_range.mp hi) hjoined
    exact h.arrive ht hreceive hreceived

theorem intact_of_reachable [DecidableEq ι] {w : Medium ι}
    (h : ((system ι codec).restrict Unmixed).Reachable w) : Intact codec w := by
  refine h.invariant (fun w hinit => intact_of_init hinit) fun w e hintact hguard => ?_
  obtain ⟨hguard, hunmixed⟩ := hguard
  cases e with
  | send node env v => exact hintact.send node hguard v
  | arrive packet => exact hintact.unmixed hunmixed
  | timeout key => exact hintact.timeout key

/-- **No packet of two senders.** In every run in which each fragment arrives
while only fragments of its own packet wait where it goes, every VAL packet that
is handed on has the header and the octets of one that one sender has sent. -/
theorem handed_of_unmixed [DecidableEq ι] {w : Medium ι}
    (h : ((system ι codec).restrict Unmixed).Reachable w) :
    ∀ d ∈ w.handed, ∃ t ∈ w.sent, Delivers t.packet d :=
  (intact_of_reachable h).handed

/-! ### Two senders -/

/-- Nothing has been sent yet. -/
def silent (ι : Type) : Medium ι where
  senders := fun _ => .initial .stackHelper
  sent := []
  receiver := .initial .stackHelper
  handed := []

theorem init_silent (ι : Type) : (silent ι).Init := ⟨fun _ => rfl, rfl, rfl, rfl⟩

/-- The frames in which a new link service sends the sample. -/
def sampleFrames (octet : UInt8) : List WireBlock :=
  match (Service.initial .stackHelper).doSendValPacket (sampleEnvironment 102)
    (samplePacket octet) with
  | .ok (_, frames) => frames
  | .error _ => []

/-- The `i`-th of them. -/
def sampleFrame (octet : UInt8) (i : ℕ) : WireBlock :=
  (sampleFrames octet).getD i ⟨⟨0, []⟩, []⟩

/-- One node sends, and its frames arrive in the wrong order. -/
def reordered : List (Event Unit contentCodec) :=
  [.send () (sampleEnvironment 102) (sampleSendable 0), .arrive (sampleFrame 0 1),
    .arrive (sampleFrame 0 0)]

theorem reachable_reordered : ((system Unit contentCodec).restrict Unmixed).Reachable
    (reordered.foldl next (silent Unit)) := by
  refine System.Reachable.foldl (.of_init (init_silent Unit)) ?_
  refine .cons ⟨nofun, trivial⟩ (.cons ⟨?_, ?_⟩ (.cons ⟨?_, ?_⟩ (.nil _)))
  all_goals exact ⟨⟨(), samplePacket 0, sampleFrames 0⟩, .head _, by decide +kernel⟩

theorem handed_of_unmixed_reordered :
    (reordered.foldl next (silent Unit)).handed.length = 1 ∧
    ∀ d ∈ (reordered.foldl next (silent Unit)).handed,
      ∃ t ∈ (reordered.foldl next (silent Unit)).sent, Delivers t.packet d :=
  ⟨rfl, handed_of_unmixed reachable_reordered⟩

/-- Two nodes send, and their frames arrive in turn. -/
def crossed : List (Event Bool contentCodec) :=
  [.send false (sampleEnvironment 102) (sampleSendable 0),
    .send true (sampleEnvironment 102) (sampleSendable 1),
    .arrive (sampleFrame 0 0), .arrive (sampleFrame 1 0), .arrive (sampleFrame 1 1),
    .arrive (sampleFrame 0 1)]

theorem reachable_crossed :
    (system Bool contentCodec).Reachable (crossed.foldl next (silent Bool)) := by
  refine System.Reachable.foldl (.of_init (init_silent Bool)) ?_
  refine .cons nofun (.cons nofun (.cons ?_ (.cons ?_ (.cons ?_ (.cons ?_ (.nil _))))))
  · exact ⟨⟨false, samplePacket 0, sampleFrames 0⟩, .head _, by decide +kernel⟩
  · exact ⟨⟨true, samplePacket 1, sampleFrames 1⟩, .tail _ (.head _), by decide +kernel⟩
  · exact ⟨⟨true, samplePacket 1, sampleFrames 1⟩, .tail _ (.head _), by decide +kernel⟩
  · exact ⟨⟨false, samplePacket 0, sampleFrames 0⟩, .head _, by decide +kernel⟩

/-- The receiver hands on a packet that begins with what the one sent and ends
with what the other sent. -/
theorem handed_of_two_senders :
    ∃ w, (system Bool contentCodec).Reachable w ∧
      ∃ d ∈ w.handed, ∀ t ∈ w.sent, ¬ Delivers t.packet d :=
  ⟨_, reachable_crossed, by decide +kernel⟩

end Medium

end ValProofs.Link
