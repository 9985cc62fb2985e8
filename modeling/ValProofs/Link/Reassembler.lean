import Mathlib.Data.List.Forall2
import Mathlib.Data.List.GetD
import Mathlib.Logic.Function.Basic
import ValProofs.Lib.Collector
import ValProofs.Link.Packet

/-!
`LpReassembler`: fragments are kept in partial packets until all of a message
are there.

A partial packet is found by the remote endpoint and the sequence number of the
message's first fragment, which a fragment's own number and index determine. Its
slots start out as empty packets, and a slot is taken if the packet in it has a
sequence number. A partial packet carries the two facts on which the code
relies without a check: it has as many slots as the message has fragments, and
it counts those that are taken.

For the fragments of one message a partial packet is a collector of numbered
parts.
-/

namespace ValProofs.Link

open Lib Packet Finset

/-- A partial packet that has no fragment yet is a list of these. -/
def Packet.empty : Packet := ⟨[]⟩

/-- `PartialPacket`. The number of slots and the count of the taken ones are
right, and what was stored had a fragment. -/
structure PartialPacket where
  fragments : List Packet
  fragCount : ℕ
  nReceivedFragments : ℕ
  sized : fragments.length = fragCount
  received : nReceivedFragments = fragments.countP (·.has .sequence)
  carries : ∀ p ∈ fragments, p.has .sequence → p.has .fragment

namespace PartialPacket

/-- `fragments[fragIndex]`. -/
def slot (pp : PartialPacket) (fragIndex : ℕ) : Packet := pp.fragments.getD fragIndex Packet.empty

theorem countP_replicate (n : ℕ) : 0 = (List.replicate n empty).countP (·.has .sequence) := by
  rw [List.countP_replicate]
  rfl

theorem carries_replicate (n : ℕ) :
    ∀ p ∈ List.replicate n empty, p.has .sequence → p.has .fragment := by
  intro p hp hseq
  rw [List.eq_of_mem_replicate hp] at hseq
  cases hseq

/-- A new partial packet. -/
def new (fragCount : ℕ) : PartialPacket where
  fragments := List.replicate fragCount Packet.empty
  fragCount := fragCount
  nReceivedFragments := 0
  sized := List.length_replicate
  received := countP_replicate fragCount
  carries := carries_replicate fragCount

theorem slot_eq {pp : PartialPacket} {fragIndex : ℕ} (h : fragIndex < pp.fragments.length) :
    pp.slot fragIndex = pp.fragments[fragIndex] :=
  List.getD_eq_getElem _ _ h

section Store

variable {pp : PartialPacket} {fragIndex : ℕ} {packet : Packet}

theorem sized_set : (pp.fragments.set fragIndex packet).length = pp.fragCount :=
  List.length_set.trans pp.sized

theorem received_set (hindex : fragIndex < pp.fragments.length)
    (hfree : ¬ (pp.slot fragIndex).has .sequence) (hsequence : packet.has .sequence) :
    pp.nReceivedFragments + 1 =
      (pp.fragments.set fragIndex packet).countP (·.has .sequence) := by
  rw [slot_eq hindex] at hfree
  rw [List.countP_set hindex, if_neg hfree, if_pos hsequence, pp.received, Nat.sub_zero]

theorem carries_set (hfragment : packet.has .fragment) :
    ∀ p ∈ pp.fragments.set fragIndex packet, p.has .sequence → p.has .fragment := by
  intro p hp hseq
  obtain hp | rfl := List.mem_or_eq_of_mem_set hp
  · exact pp.carries p hp hseq
  · exact hfragment

end Store

/-- `fragments[fragIndex] = packet; ++nReceivedFragments`. -/
def store (pp : PartialPacket) (fragIndex : ℕ) (packet : Packet)
    (hindex : fragIndex < pp.fragments.length) (hfree : ¬ (pp.slot fragIndex).has .sequence)
    (hsequence : packet.has .sequence) (hfragment : packet.has .fragment) : PartialPacket where
  fragments := pp.fragments.set fragIndex packet
  fragCount := pp.fragCount
  nReceivedFragments := pp.nReceivedFragments + 1
  sized := sized_set
  received := received_set hindex hfree hsequence
  carries := carries_set hfragment

/-- `doReassembly`. The sizes of the fragments are added up in an `unsigned
int`; when they do not fit, the fragments are copied into a buffer that is too
small. -/
def doReassembly (pp : PartialPacket) : Except Failure WireBlock := do
  let payloads ← pp.fragments.mapM Packet.getFragment
  if 2 ^ 32 ≤ (payloads.map List.length).sum then
    throw (.undefined "copy past the end of fragBuffer")
  (readBlock payloads.flatten).mapError .tlvError

end PartialPacket

open PartialPacket

/-- The remote endpoint and the message identifier. -/
abbrev Key := UInt64 × UInt64

structure Reassembler where
  nMaxFragments : ℕ
  partialPackets : Key → Option PartialPacket

namespace Reassembler

/-- The state of a new reassembler. -/
def initial (nMaxFragments : ℕ) : Reassembler where
  nMaxFragments := nMaxFragments
  partialPackets := fun _ => none

def update (r : Reassembler) (key : Key) (pp : Option PartialPacket) : Reassembler :=
  { r with partialPackets := Function.update r.partialPackets key pp }

/-- `m_partialPackets[key]`, which is new if there is none. -/
def lookup (r : Reassembler) (key : Key) (fragCount : ℕ) : PartialPacket :=
  (r.partialPackets key).getD (.new fragCount)

/-- A field that has a default. -/
def readOr (packet : Packet) (f : Field) (default : ℕ) : Except Failure ℕ :=
  if packet.has f then packet.get f Packet.decodeNonNegativeInteger else .ok default

/-- `FragIndex` and `FragCount`, with their defaults. -/
def readIndexAndCount (packet : Packet) : Except Failure (ℕ × ℕ) := do
  let fragIndex ← readOr packet .fragIndex 0
  let fragCount ← readOr packet .fragCount 1
  return (fragIndex, fragCount)

/-- A message that is complete is put together. An exception leaves the partial packet. -/
def complete (r : Reassembler) (key : Key) (pp : PartialPacket) :
    Reassembler × Except Failure (Option (WireBlock × Packet)) :=
  if pp.nReceivedFragments = pp.fragCount then
    match pp.doReassembly with
    | .error failure => (r.update key pp, .error failure)
    | .ok reassembled => (r.update key none, .ok (some (reassembled, pp.slot 0)))
  else (r.update key pp, .ok none)

/-- The part of `receiveFragment` that adds the packet to the partial packet. -/
def addFragment (r : Reassembler) (key : Key) (fragIndex fragCount : ℕ) (packet : Packet)
    (hsequence : packet.has .sequence) (hfragment : packet.has .fragment) :
    Reassembler × Except Failure (Option (WireBlock × Packet)) :=
  let pp := r.lookup key fragCount
  if fragCount ≠ pp.fragCount then (r, .ok none)
  else if hfree : (pp.slot fragIndex).has .sequence then (r, .ok none)
  else if hindex : fragIndex < pp.fragments.length then
    r.complete key (pp.store fragIndex packet hindex hfree hsequence hfragment)
  else (r, .error (.undefined "fragments[fragIndex] out of bounds"))

/-- The fast path: the packet is the only fragment. -/
def receiveSingle (packet : Packet) : Except Failure (Option (WireBlock × Packet)) := do
  let fragment ← packet.getFragment
  let netPkt ← (readBlock fragment).mapError .tlvError
  return some (netPkt, packet)

def receiveFragment (r : Reassembler) (remoteEndpoint : UInt64) (packet : Packet) :
    Reassembler × Except Failure (Option (WireBlock × Packet)) :=
  if hfragment : packet.has .fragment then
    match readIndexAndCount packet with
    | .error failure => (r, .error failure)
    | .ok (fragIndex, fragCount) =>
        if fragCount ≤ fragIndex then (r, .ok none)
        else if r.nMaxFragments < fragCount then (r, .ok none)
        else if fragIndex = 0 ∧ fragCount = 1 then (r, receiveSingle packet)
        else if hsequence : packet.has .sequence then
          match packet.getSequence with
          | .error failure => (r, .error failure)
          | .ok sequence =>
              r.addFragment (remoteEndpoint, sequence - UInt64.ofNat fragIndex) fragIndex fragCount
                packet hsequence hfragment
        else (r, .ok none)
  else (r, .error (.assertion "packet.has<lp::FragmentField>()"))

/-- `timeoutPartialPacket(key)`. -/
def timeoutPartialPacket (r : Reassembler) (key : Key) : Reassembler := r.update key none

@[simp] theorem partialPackets_update_self (r : Reassembler) (key : Key)
    (pp : Option PartialPacket) : (r.update key pp).partialPackets key = pp :=
  Function.update_self ..

theorem partialPackets_update_of_ne {key key' : Key} (h : key' ≠ key) (r : Reassembler)
    (pp : Option PartialPacket) : (r.update key pp).partialPackets key' = r.partialPackets key' :=
  Function.update_of_ne h ..

end Reassembler

open Reassembler

/-! ### The fragments of one message -/

/-- The fragments of a message: their fields, and the parts of the network
packet they carry. -/
structure Message where
  /-- The sequence number of the first. -/
  id : UInt64
  chunks : List (List UInt8)
  packet : ℕ → Packet
  two_le : 2 ≤ chunks.length
  short : (chunks.map List.length).sum < 2 ^ 32
  index : ∀ i < chunks.length, (packet i).find .fragIndex = some (nonNegativeInteger i)
  count : ∀ i < chunks.length, (packet i).find .fragCount = some (nonNegativeInteger chunks.length)
  sequence : ∀ i < chunks.length,
    (packet i).find .sequence = some (Packet.encodeUInt64 (id + UInt64.ofNat i))
  fragment : ∀ i (hi : i < chunks.length), (packet i).find .fragment = some chunks[i]
  nonempty : ∀ c ∈ chunks, c ≠ []

namespace Message

variable {m : Message} {i : ℕ}

/-- The number of fragments. -/
def fragCount (m : Message) : ℕ := m.chunks.length

theorem length_le_sum {chunks : List (List UInt8)} (h : ∀ c ∈ chunks, c ≠ []) :
    chunks.length ≤ (chunks.map List.length).sum := by
  induction chunks with
  | nil => simp
  | cons c chunks ih =>
    obtain ⟨hc, hchunks⟩ := List.forall_mem_cons.mp h
    have hpos := List.length_pos_iff.mpr hc
    have := ih hchunks
    simp only [List.length_cons, List.map_cons, List.sum_cons]
    omega

theorem fragCount_lt (m : Message) : m.fragCount < 2 ^ 32 :=
  (length_le_sum m.nonempty).trans_lt m.short

section

variable (hi : i < m.fragCount)
include hi

theorem has_sequence : (m.packet i).has .sequence :=
  has_of_find (m.sequence i hi)

theorem has_fragment : (m.packet i).has .fragment :=
  has_of_find (m.fragment i hi)

theorem getFragment_packet : (m.packet i).getFragment = .ok (m.chunks.get ⟨i, hi⟩) :=
  get_of_find (m.fragment i hi)
    (decodeRange_of_ne (m.nonempty _ (List.getElem_mem hi)))

theorem readIndexAndCount_packet : readIndexAndCount (m.packet i) = .ok (i, m.fragCount) := by
  have hlt := m.fragCount_lt
  have hread : ∀ {f n} default, n < 2 ^ 64 → (m.packet i).find f = some (nonNegativeInteger n) →
      readOr (m.packet i) f default = .ok n := by
    intro f n default hn hfind
    rw [readOr, if_pos (has_of_find hfind)]
    exact get_of_find hfind (Tlv.readNonNegativeInteger_nonNegativeInteger hn)
  rw [readIndexAndCount, hread 0 (by omega) (m.index i hi),
    hread 1 (hlt.trans (by decide)) (m.count i hi)]
  rfl

theorem getSequence_packet : (m.packet i).getSequence = .ok (m.id + UInt64.ofNat i) :=
  get_of_find (m.sequence i hi) (decodeUInt64_encodeUInt64 _ _)

end

/-- A fragment is added to the partial packet of its message. -/
theorem receiveFragment_packet {r : Reassembler} (hmax : m.fragCount ≤ r.nMaxFragments)
    (hi : i < m.fragCount) (remoteEndpoint : UInt64) :
    r.receiveFragment remoteEndpoint (m.packet i) =
      r.addFragment (remoteEndpoint, m.id) i m.fragCount (m.packet i) (has_sequence hi)
        (has_fragment hi) := by
  have htwo : 2 ≤ m.fragCount := m.two_le
  have hid : m.id + UInt64.ofNat i - UInt64.ofNat i = m.id := by
    rw [UInt64.add_sub_cancel]
  rw [receiveFragment, dif_pos (has_fragment hi)]
  simp only [readIndexAndCount_packet hi, getSequence_packet hi, hid]
  rw [if_neg (Nat.not_le.mpr hi), if_neg (Nat.not_lt.mpr hmax), if_neg (by omega),
    dif_pos (has_sequence hi)]

/-- The slots of the partial packet that are taken are those in `held`, and each
has the message's fragment with its number. -/
structure Holds (m : Message) (pp : PartialPacket) (held : Finset ℕ) : Prop where
  fragCount : pp.fragCount = m.fragCount
  received : pp.nReceivedFragments = held.card
  lt : ∀ i ∈ held, i < m.fragCount
  taken : ∀ i ∈ held, pp.slot i = m.packet i
  free : ∀ i, i ∉ held → (pp.slot i).has .sequence = false

theorem slot_new (n i : ℕ) : (new n).slot i = empty := by
  rw [slot, new, List.getD_eq_getElem?_getD, List.getElem?_replicate]
  split <;> rfl

theorem holds_new (m : Message) : Holds m (.new m.fragCount) ∅ where
  fragCount := rfl
  received := rfl
  lt := by simp
  taken := by simp
  free := fun i _ => by rw [slot_new]; rfl

variable {pp : PartialPacket} {held : Finset ℕ}

theorem slot_store {j : ℕ} {packet : Packet} (hindex : i < pp.fragments.length)
    (hfree : ¬ (pp.slot i).has .sequence) (hsequence : packet.has .sequence)
    (hfragment : packet.has .fragment) :
    (pp.store i packet hindex hfree hsequence hfragment).slot j =
      if i = j then packet else pp.slot j := by
  simp only [slot, store, List.getD_eq_getElem?_getD, List.getElem?_set]
  split <;> rfl

theorem Holds.store (h : Holds m pp held) (hi : i < m.fragCount) (hnot : i ∉ held)
    (hindex : i < pp.fragments.length) (hfree : ¬ (pp.slot i).has .sequence) :
    Holds m (pp.store i (m.packet i) hindex hfree (has_sequence hi) (has_fragment hi))
      (insert i held) where
  fragCount := h.fragCount
  received := by
    rw [card_insert_of_notMem hnot, ← h.received]
    rfl
  lt := forall_mem_insert .. |>.mpr ⟨hi, h.lt⟩
  taken := by
    intro j hj
    rw [slot_store]
    split
    · rename_i hij
      rw [hij]
    · rename_i hij
      exact h.taken j ((mem_insert.mp hj).resolve_left (Ne.symm hij))
  free := by
    intro j hj
    have hij : ¬ i = j := fun hij => hj (mem_insert.mpr (.inl hij.symm))
    rw [slot_store, if_neg hij]
    exact h.free j fun hj' => hj (mem_insert_of_mem hj')

/-- A collector with as many parts as the message holds each of them. -/
theorem Holds.eq_range (h : Holds m pp held) (hall : held.card = m.fragCount) :
    held = range m.fragCount := by
  refine eq_of_subset_of_card_le (fun i hi => mem_range.mpr (h.lt i hi)) ?_
  rw [card_range, hall]

theorem Holds.zero_mem (h : Holds m pp held) (hall : held.card = m.fragCount) : 0 ∈ held := by
  rw [h.eq_range hall, mem_range]
  exact Nat.lt_of_lt_of_le Nat.two_pos m.two_le

/-- A collector with all parts of the message has its fragments in order. -/
theorem Holds.fragments (h : Holds m pp held) (hall : held.card = m.fragCount) :
    pp.fragments = (List.range m.fragCount).map m.packet := by
  have hlength := pp.sized.trans h.fragCount
  refine List.ext_getElem (by simp [hlength]) fun i hi hi' => ?_
  rw [← slot_eq hi, List.getElem_map, List.getElem_range]
  exact h.taken i (by rw [h.eq_range hall, mem_range]; omega)

theorem mapM_eq_ok {α β ε : Type} {f : α → Except ε β} {l : List α} {l' : List β}
    (h : List.Forall₂ (fun a b => f a = .ok b) l l') : l.mapM f = .ok l' := by
  induction h with
  | nil => rfl
  | cons hab _ ih =>
    rw [List.mapM_cons, hab, ih]
    rfl

/-- The message is put together from a partial packet that holds all of it. -/
theorem Holds.doReassembly (h : Holds m pp held) (hall : held.card = m.fragCount) :
    pp.doReassembly = (readBlock m.chunks.flatten).mapError .tlvError := by
  have hpayloads : pp.fragments.mapM getFragment = .ok m.chunks := by
    rw [h.fragments hall]
    refine mapM_eq_ok (List.forall₂_iff_get.mpr ⟨?_, fun i hi hi' => ?_⟩)
    · rw [List.length_map, List.length_range]
      rfl
    · simpa using getFragment_packet hi'
  rw [PartialPacket.doReassembly, hpayloads]
  simp only [bind, Except.bind]
  rw [if_neg (Nat.not_le.mpr m.short)]

/-! ### Receiving the fragments of a message -/

/-- What the reassembler has under the key are the fragments `held` of the
message. -/
def Tracked (m : Message) (r : Reassembler) (key : Key) (held : Finset ℕ) : Prop :=
  Holds m (r.lookup key m.fragCount) held

theorem tracked_none {r : Reassembler} {key : Key} (h : r.partialPackets key = none) :
    m.Tracked r key ∅ := by
  rw [Tracked, lookup, h]
  exact holds_new m

theorem tracked_update {r : Reassembler} {key : Key} (h : Holds m pp held) :
    m.Tracked (r.update key pp) key held := by
  rw [Tracked, lookup, partialPackets_update_self]
  exact h

variable {r : Reassembler} {key : Key} {netPkt : WireBlock}

/-- A fragment that is held already is dropped. -/
theorem addFragment_of_mem (h : m.Tracked r key held) (hi : i < m.fragCount) (hmem : i ∈ held) :
    r.addFragment key i m.fragCount (m.packet i) (has_sequence hi) (has_fragment hi) =
      (r, .ok none) := by
  have htaken : ((r.lookup key m.fragCount).slot i).has .sequence := by
    rw [h.taken i hmem]
    exact has_sequence hi
  rw [addFragment, if_neg (not_not.mpr h.fragCount.symm), dif_pos htaken]

/-- A fragment that is not held is stored, and the message is put together if
all of it is there. -/
theorem addFragment_of_notMem (h : m.Tracked r key held) (hi : i < m.fragCount) (hnot : i ∉ held) :
    ∃ pp, Holds m pp (insert i held) ∧
      r.addFragment key i m.fragCount (m.packet i) (has_sequence hi) (has_fragment hi) =
        r.complete key pp := by
  have hfree : ¬ ((r.lookup key m.fragCount).slot i).has .sequence := by
    rw [h.free i hnot]
    decide
  have hindex : i < (r.lookup key m.fragCount).fragments.length := by
    rw [sized, h.fragCount]
    exact hi
  refine ⟨_, Holds.store h hi hnot hindex hfree, ?_⟩
  rw [addFragment, if_neg (not_not.mpr h.fragCount.symm), dif_neg hfree, dif_pos hindex]

/-- The fragment that is missing completes the message. -/
theorem addFragment_of_card (h : m.Tracked r key held) (hi : i < m.fragCount) (hnot : i ∉ held)
    (hall : (insert i held).card = m.fragCount) (hread : readBlock m.chunks.flatten = .ok netPkt) :
    r.addFragment key i m.fragCount (m.packet i) (has_sequence hi) (has_fragment hi) =
      (r.update key none, .ok (some (netPkt, m.packet 0))) := by
  obtain ⟨pp, hholds, hadd⟩ := addFragment_of_notMem h hi hnot
  have hcount : pp.nReceivedFragments = pp.fragCount := by
    rw [hholds.received, hall, hholds.fragCount]
  rw [hadd, complete, if_pos hcount, hholds.doReassembly hall, hread,
    hholds.taken 0 (hholds.zero_mem hall)]
  rfl

/-- Any other fragment is kept. -/
theorem addFragment_of_card_ne (h : m.Tracked r key held) (hi : i < m.fragCount) (hnot : i ∉ held)
    (hnall : (insert i held).card ≠ m.fragCount) :
    ∃ pp, Holds m pp (insert i held) ∧
      r.addFragment key i m.fragCount (m.packet i) (has_sequence hi) (has_fragment hi) =
        (r.update key pp, .ok none) := by
  obtain ⟨pp, hholds, hadd⟩ := addFragment_of_notMem h hi hnot
  have hcount : ¬ pp.nReceivedFragments = pp.fragCount := by
    rw [hholds.received, hholds.fragCount]
    exact hnall
  exact ⟨pp, hholds, hadd.trans (if_neg hcount)⟩

end Message

end ValProofs.Link
