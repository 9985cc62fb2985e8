import ValProofs.Link.Packet

/-!
`LpFragmenter`: one packet becomes several whose fragments together are the
fragment it had.

The first of them keeps the other fields of the packet, so its payload is
smaller than those that follow. The number of fragments is computed before the
loop that makes them, and after it the code asserts that it was right, and that
no fragment is larger than the MTU. Both hold: the overheads the code counts on
are bounds on what the fields take, and a packet that did not go the fast way
has at least two fragments.
-/

namespace ValProofs.Link

open Lib Packet List

/-- `LpPacket`, `Sequence` and the type and length of `Fragment` at their
largest. -/
def maxSingleFragOverhead : ℕ := 1 + 9 + (1 + 1 + 8) + (1 + 9)

/-- The same with `FragIndex` and `FragCount`. -/
def maxFragOverhead : ℕ := 1 + 9 + (1 + 1 + 8) + (1 + 1 + 8) + (1 + 1 + 8) + (1 + 9)

structure FragmenterOptions where
  nMaxFragments : ℕ := 400
  deriving DecidableEq, Repr

/-- `frags[fragIndex]` before the loop gets to it: the first is a copy of the
packet. -/
def fragmentBase (packet : Packet) (fragIndex : ℕ) : Packet :=
  if fragIndex = 0 then packet else ⟨[]⟩

/-- The body of the loop, for the fragment with the payload `payload`. -/
def makeFragment (packet : Packet) (fragIndex fragCount : ℕ) (payload : List UInt8) :
    Except Failure Packet := do
  let frag ← (fragmentBase packet fragIndex).add .fragIndex (nonNegativeInteger fragIndex)
  let frag ← frag.add .fragCount (nonNegativeInteger fragCount)
  frag.set .fragment payload

/-- The loop that populates the fragments, from `fragIndex` on; the next one has
up to `size` octets of what is left of the network packet, the others up to
`payloadSize`. -/
def populate (packet : Packet) (mtu fragCount payloadSize : ℕ) :
    ℕ → ℕ → ℕ → List UInt8 → Except Failure (List Packet)
  | 0, _, _, _ => .error (.undefined "the loop does not end")
  | fuel + 1, fragIndex, size, rest =>
      if rest = [] then
        if fragIndex = fragCount then .ok []
        else .error (.assertion "fragIndex == fragCount")
      else if fragCount ≤ fragIndex then .error (.undefined "frags[fragIndex] out of bounds")
      else do
        let frag ← makeFragment packet fragIndex fragCount (rest.take size)
        let (wire, _) ← frag.wireEncode
        if mtu < wire.size then throw (.assertion "frag.wireEncode().size() <= mtu")
        let frags ← populate packet mtu fragCount payloadSize fuel (fragIndex + 1) payloadSize
          (rest.drop size)
        return frag :: frags

/-- How many pieces of `size` octets `n` octets make. -/
def pieces (n size : ℕ) : ℕ := n / size + if n % size ≠ 0 then 1 else 0

/-- The part of `fragmentPacket` that computes the sizes of the payloads and
makes the fragments. -/
def fragmentPayload (options : FragmenterOptions) (packet : Packet) (mtu firstHeaderSize : ℕ)
    (netPkt : List UInt8) : Except Failure (Option (List Packet)) :=
  if mtu < maxFragOverhead + firstHeaderSize + 1 then .ok none
  else
    let firstPayloadSize := min netPkt.length (mtu - firstHeaderSize - maxFragOverhead)
    let payloadSize := mtu - maxFragOverhead
    let fragCount := 1 + pieces (netPkt.length - firstPayloadSize) payloadSize
    if options.nMaxFragments < fragCount then .ok none
    else
      (populate packet mtu fragCount payloadSize (netPkt.length + 1) 0 firstPayloadSize
        netPkt).map some

/-- `fragmentPacket(packet, mtu)`; `none` is a result whose first component is
`false`. -/
def fragmentPacket (options : FragmenterOptions) (packet : Packet) (mtu : ℕ) :
    Except Failure (Option (List Packet)) :=
  if !packet.has .fragment then .error (.assertion "packet.has<lp::FragmentField>()")
  else if packet.has .fragIndex then .error (.assertion "!packet.has<lp::FragIndexField>()")
  else if packet.has .fragCount then .error (.assertion "!packet.has<lp::FragCountField>()")
  else do
    let (wire, elements) ← packet.wireEncode
    if maxSingleFragOverhead + wire.size ≤ mtu then return some [packet]
    let netPkt ← packet.getFragment
    let firstHeaderSize :=
      if wire.type = tlvLpPacket then
        ((elements.filter fun e => e.type ≠ Field.fragment.tlvType).map Block.size).sum
      else 0
    fragmentPayload options packet mtu firstHeaderSize netPkt

/-! ### One fragment -/

/-- The fragment that the body of the loop makes. -/
def fragmentOf (packet : Packet) (fragIndex fragCount : ℕ) (payload : List UInt8) : Packet :=
  (((fragmentBase packet fragIndex).insert .fragIndex (nonNegativeInteger fragIndex)).insert
    .fragCount (nonNegativeInteger fragCount)).put .fragment payload

/-- A packet that can be fragmented. -/
structure Whole (packet : Packet) (netPkt : List UInt8) : Prop where
  wellFormed : packet.WellFormed
  fragment : packet.find .fragment = some netPkt
  nonempty : netPkt ≠ []
  noIndex : packet.find .fragIndex = none
  noCount : packet.find .fragCount = none
  /-- It has a header, so that it is not encoded as the bare network packet. -/
  header : ∃ f value, f ≠ .fragment ∧ packet.find f = some value

/-- The fragmenter needs less: the other fields of the packet may be repeated, and
there may be some that are not known. -/
structure Carries (packet : Packet) (netPkt : List UInt8) : Prop where
  fragment : packet.elements.filter (fun e => e.type = Field.fragment.tlvType) =
    [⟨Field.fragment.tlvType, netPkt⟩]
  nonempty : netPkt ≠ []
  noIndex : packet.find .fragIndex = none
  noCount : packet.find .fragCount = none
  header : ∃ f value, f ≠ .fragment ∧ packet.find f = some value

section Fragment

variable {packet : Packet} {netPkt : List UInt8} {f : Field}

theorem find_fragmentBase (h : packet.find f = none) (fragIndex : ℕ) :
    (fragmentBase packet fragIndex).find f = none := by
  unfold fragmentBase
  split
  · exact h
  · rfl

theorem makeFragment_eq (h : Carries packet netPkt) (fragIndex fragCount : ℕ)
    (payload : List UInt8) :
    makeFragment packet fragIndex fragCount payload =
      .ok (fragmentOf packet fragIndex fragCount payload) := by
  have hindex := find_fragmentBase h.noIndex fragIndex
  have hcount : ((fragmentBase packet fragIndex).insert .fragIndex
      (nonNegativeInteger fragIndex)).find .fragCount = none := by
    rw [find_insert_of_ne (by decide)]
    exact find_fragmentBase h.noCount fragIndex
  simp only [makeFragment, add_of_find hindex, add_of_find hcount, set_eq, bind, Except.bind]
  rfl

theorem wellFormed_fragmentOf (h : Whole packet netPkt) (fragIndex fragCount : ℕ)
    (payload : List UInt8) : (fragmentOf packet fragIndex fragCount payload).WellFormed := by
  have hbase : (fragmentBase packet fragIndex).WellFormed := by
    unfold fragmentBase
    split
    · exact h.wellFormed
    · exact wellFormed_nil
  refine ((hbase.insert (find_fragmentBase h.noIndex fragIndex) _).insert ?_ _).put .fragment _
  rw [find_insert_of_ne (by decide)]
  exact find_fragmentBase h.noCount fragIndex

theorem find_fragmentOf_index (h : Carries packet netPkt) (fragIndex fragCount : ℕ)
    (payload : List UInt8) :
    (fragmentOf packet fragIndex fragCount payload).find .fragIndex =
      some (nonNegativeInteger fragIndex) := by
  rw [fragmentOf, find_put_of_ne (by decide), find_insert_of_ne (by decide),
    find_insert_self (find_fragmentBase h.noIndex fragIndex)]

theorem find_fragmentOf_count (h : Carries packet netPkt) (fragIndex fragCount : ℕ)
    (payload : List UInt8) :
    (fragmentOf packet fragIndex fragCount payload).find .fragCount =
      some (nonNegativeInteger fragCount) := by
  rw [fragmentOf, find_put_of_ne (by decide), find_insert_self]
  rw [find_insert_of_ne (by decide)]
  exact find_fragmentBase h.noCount fragIndex

@[simp] theorem find_fragmentOf_fragment (packet : Packet) (fragIndex fragCount : ℕ)
    (payload : List UInt8) :
    (fragmentOf packet fragIndex fragCount payload).find .fragment = some payload := by
  rw [fragmentOf, find_put_self]

/-- The first fragment has the other fields of the packet. -/
theorem find_fragmentOf_zero (hfragment : f ≠ .fragment) (hindex : f ≠ .fragIndex)
    (hcount : f ≠ .fragCount) (fragCount : ℕ) (payload : List UInt8) :
    (fragmentOf packet 0 fragCount payload).find f = packet.find f := by
  rw [fragmentOf, find_put_of_ne hfragment, find_insert_of_ne hcount, find_insert_of_ne hindex]
  rfl

/-! ### Sizes -/

theorem size_le_of_type {type : ℕ} (h : type < 253) (value : List UInt8) :
    Block.size ⟨type, value⟩ ≤ value.length + 10 := by
  have hlength := Tlv.length_varNumber_le value.length
  rw [Block.size_mk, Tlv.length_varNumber_of_lt h]
  omega

theorem size_integer_le {type : ℕ} (h : type < 253) (n : ℕ) :
    Block.size ⟨type, nonNegativeInteger n⟩ ≤ 10 := by
  have hvalue : (nonNegativeInteger n).length ≤ 8 := by
    have := length_nonNegativeInteger n
    omega
  have hlength : (Tlv.varNumber (nonNegativeInteger n).length).length = 1 :=
    Tlv.length_varNumber_of_lt (by omega)
  rw [Block.size_mk, Tlv.length_varNumber_of_lt h, hlength]
  omega

theorem bodySize_fragmentOf_le (packet : Packet) (fragIndex fragCount : ℕ) (payload : List UInt8) :
    (fragmentOf packet fragIndex fragCount payload).bodySize ≤
      payload.length + 30 + ((fragmentBase packet fragIndex).clear .fragment).bodySize := by
  have hpayload := size_le_of_type (by decide : Field.fragment.tlvType < 253) payload
  have hindex := size_integer_le (by decide : Field.fragIndex.tlvType < 253) fragIndex
  have hcount := size_integer_le (by decide : Field.fragCount.tlvType < 253) fragCount
  rw [fragmentOf, put, bodySize_insert,
    bodySize_clear_insert_of_ne (by decide), bodySize_clear_insert_of_ne (by decide)]
  omega

variable {mtu fragCount : ℕ}

/-- The first fragment is within the MTU, with room for a sequence number. -/
theorem bodySize_fragmentOf_first {payload : List UInt8}
    (h : payload.length + (packet.clear .fragment).bodySize + 50 ≤ mtu) :
    (fragmentOf packet 0 fragCount payload).bodySize + 20 ≤ mtu := by
  have hbound := bodySize_fragmentOf_le packet 0 fragCount payload
  have hbase : fragmentBase packet 0 = packet := rfl
  rw [hbase] at hbound
  omega

/-- So are the others. -/
theorem bodySize_fragmentOf_rest {fragIndex : ℕ} {payload : List UInt8} (hindex : 0 < fragIndex)
    (h : payload.length + 50 ≤ mtu) :
    (fragmentOf packet fragIndex fragCount payload).bodySize + 20 ≤ mtu := by
  have hbound := bodySize_fragmentOf_le packet fragIndex fragCount payload
  have hbase : fragmentBase packet fragIndex = ⟨[]⟩ := if_neg (Nat.pos_iff_ne_zero.mp hindex)
  have hempty : (clear ⟨[]⟩ .fragment).bodySize = 0 := rfl
  rw [hbase, hempty] at hbound
  omega

/-! ### The loop -/

theorem pieces_zero (size : ℕ) : pieces 0 size = 0 := by simp [pieces]

theorem pieces_succ {n size : ℕ} (hn : 0 < n) (hsize : 0 < size) :
    pieces n size = pieces (n - size) size + 1 := by
  unfold pieces
  obtain hlt | hle := Nat.lt_or_ge n size
  · rw [Nat.sub_eq_zero_of_le hlt.le, Nat.div_eq_of_lt hlt, Nat.mod_eq_of_lt hlt, if_pos (by omega)]
    simp
  · rw [Nat.mod_eq_sub_mod hle, Nat.div_eq_sub_div hsize hle]
    omega

/-- The body of the loop runs through once, for a fragment that is small
enough. -/
theorem populate_step (h : Carries packet netPkt) {payloadSize fuel fragIndex size : ℕ}
    {rest : List UInt8} {frags : List Packet} (hrest : rest ≠ []) (hindex : fragIndex < fragCount)
    (hsize : (fragmentOf packet fragIndex fragCount (rest.take size)).bodySize + 20 ≤ mtu)
    (hnext : populate packet mtu fragCount payloadSize fuel (fragIndex + 1) payloadSize
      (rest.drop size) = .ok frags) :
    populate packet mtu fragCount payloadSize (fuel + 1) fragIndex size rest =
      .ok (fragmentOf packet fragIndex fragCount (rest.take size) :: frags) := by
  have hencode := wireEncode_of_find (by decide)
    (find_fragmentOf_index h fragIndex fragCount (rest.take size))
  have hblock := size_block_le (fragmentOf packet fragIndex fragCount (rest.take size))
  have hfits : ¬ mtu < (fragmentOf packet fragIndex fragCount (rest.take size)).block.size := by
    omega
  rw [populate, if_neg hrest, if_neg (Nat.not_le.mpr hindex)]
  simp only [makeFragment_eq h, hencode, hnext, bind, Except.bind, if_neg hfits]
  rfl

/-- The fragments after the first: their payloads are what is left of the
network packet, and there are as many of them as were counted. -/
theorem populate_rest (h : Carries packet netPkt) {payloadSize : ℕ} (hpayload : 0 < payloadSize)
    (hmtu : payloadSize + 50 ≤ mtu) :
    ∀ (fuel fragIndex : ℕ) (rest : List UInt8), rest.length < fuel → 0 < fragIndex →
      ∃ chunks : List (List UInt8), chunks.flatten = rest ∧
        (∀ c ∈ chunks, c ≠ [] ∧ c.length ≤ payloadSize) ∧
        chunks.length = pieces rest.length payloadSize ∧
        ∀ fragCount, fragCount = fragIndex + pieces rest.length payloadSize →
          populate packet mtu fragCount payloadSize fuel fragIndex payloadSize rest =
            .ok (chunks.mapIdx fun i c => fragmentOf packet (fragIndex + i) fragCount c) := by
  intro fuel
  induction fuel with
  | zero =>
    intro fragIndex rest hfuel
    exact absurd hfuel (Nat.not_lt_zero _)
  | succ fuel ih =>
    intro fragIndex rest hfuel hfragIndex
    by_cases hrest : rest = []
    · subst hrest
      refine ⟨[], rfl, forall_mem_nil _, (pieces_zero _).symm, fun fragCount hcount => ?_⟩
      rw [length_nil, pieces_zero, Nat.add_zero] at hcount
      rw [populate, if_pos rfl, if_pos hcount.symm]
      rfl
    · have hpos : 0 < rest.length := length_pos_iff.mpr hrest
      have hpieces := pieces_succ hpos hpayload
      obtain ⟨chunks, hflatten, hchunks, hlength, hloop⟩ := ih (fragIndex + 1)
        (rest.drop payloadSize) (by rw [length_drop]; omega) (Nat.succ_pos _)
      rw [length_drop] at hlength hloop
      have htake : (rest.take payloadSize).length ≤ payloadSize := length_take_le ..
      refine ⟨rest.take payloadSize :: chunks, ?_, ?_, ?_, fun fragCount hcount => ?_⟩
      · rw [flatten_cons, hflatten, take_append_drop]
      · refine forall_mem_cons.mpr ⟨⟨fun hnil => ?_, htake⟩, hchunks⟩
        obtain hzero | hnil := take_eq_nil_iff.mp hnil
        · omega
        · exact hrest hnil
      · rw [length_cons, hlength, hpieces]
      · have hfirst : (fragmentOf packet fragIndex fragCount
            (rest.take payloadSize)).bodySize + 20 ≤ mtu :=
          bodySize_fragmentOf_rest hfragIndex (by omega)
        rw [populate_step h hrest (by omega) hfirst (hloop fragCount (by omega)), mapIdx_cons]
        simp only [Nat.add_zero, Nat.add_assoc, Nat.add_comm 1]

/-! ### What the fragmenter makes of a packet -/

/-- The payloads of the fragments of a packet, and the fragments fit the MTU
even with the sequence numbers that are put on them. -/
structure Split (packet : Packet) (netPkt : List UInt8) (mtu : ℕ)
    (chunks : List (List UInt8)) : Prop where
  flatten : chunks.flatten = netPkt
  nonempty : ∀ c ∈ chunks, c ≠ []
  two_le : 2 ≤ chunks.length
  fits : ∀ i (hi : i < chunks.length),
    (fragmentOf packet i chunks.length chunks[i]).bodySize + 20 ≤ mtu

variable {value : List UInt8}

theorem find_eq_of_filter
    (h : packet.elements.filter (fun e => e.type = f.tlvType) = [⟨f.tlvType, value⟩]) :
    packet.find f = some value := by
  rw [find, ← head?_filter, h]
  rfl

theorem bodySize_eq_of_filter
    (h : packet.elements.filter (fun e => e.type = f.tlvType) = [⟨f.tlvType, value⟩]) :
    packet.bodySize = Block.size ⟨f.tlvType, value⟩ + (packet.clear f).bodySize := by
  have hperm := filter_append_perm (fun e : Block => e.type = f.tlvType) packet.elements
  have hsum := (hperm.map Block.size).sum_eq
  rw [h, map_append, sum_append, map_singleton, sum_singleton] at hsum
  simp only [bodySize, clear, ne_eq, decide_not]
  exact hsum.symm

/-- The fields of a well-formed packet are there once. -/
theorem filter_eq_of_find (h : packet.WellFormed) (hfind : packet.find f = some value) :
    packet.elements.filter (fun e => e.type = f.tlvType) = [⟨f.tlvType, value⟩] := by
  obtain ⟨elements⟩ := packet
  obtain ⟨hordered, -⟩ := h
  simp only [find] at hfind hordered ⊢
  induction elements with
  | nil => simp at hfind
  | cons e elements ih =>
    obtain ⟨hfirst, hordered⟩ := pairwise_cons.mp hordered
    by_cases htype : e.type = f.tlvType
    · -- the field is the first element, and no other has its type
      rw [find?_cons_of_pos (by simpa using htype)] at hfind
      have hothers : elements.filter (fun e => e.type = f.tlvType) = [] := by
        refine filter_eq_nil_iff.mpr fun x hx hx' => ?_
        exact ne_of_comparePos (hfirst x hx) (htype.trans (of_decide_eq_true hx').symm)
      obtain rfl : e = ⟨f.tlvType, value⟩ := by
        obtain ⟨type, value'⟩ := e
        obtain rfl : value' = value := by simpa using hfind
        obtain rfl : type = f.tlvType := htype
        rfl
      rw [filter_cons_of_pos (by simp), hothers]
    · rw [find?_cons_of_neg (by simpa using htype)] at hfind
      rw [filter_cons_of_neg (by simpa using htype), ih hfind hordered]

theorem Whole.carries (h : Whole packet netPkt) : Carries packet netPkt where
  fragment := filter_eq_of_find h.wellFormed h.fragment
  nonempty := h.nonempty
  noIndex := h.noIndex
  noCount := h.noCount
  header := h.header

/-- A packet that is too large for one fragment is split into at least two,
unless there is no room for its headers or the fragments are too many. -/
theorem fragmentPayload_cases (h : Carries packet netPkt) (options : FragmenterOptions)
    (hlarge : mtu < netPkt.length + (packet.clear .fragment).bodySize + 50) :
    fragmentPayload options packet mtu (packet.clear .fragment).bodySize netPkt = .ok none ∨
    ∃ chunks, Split packet netPkt mtu chunks ∧ chunks.length ≤ options.nMaxFragments ∧
      fragmentPayload options packet mtu (packet.clear .fragment).bodySize netPkt =
        .ok (some (chunks.mapIdx fun i c => fragmentOf packet i chunks.length c)) := by
  have hoverhead : maxFragOverhead = 50 := rfl
  by_cases hroom : mtu < maxFragOverhead + (packet.clear .fragment).bodySize + 1
  · rw [fragmentPayload, if_pos hroom]
    exact .inl rfl
  obtain ⟨first, hfirst⟩ : ∃ first,
      mtu - (packet.clear .fragment).bodySize - maxFragOverhead = first := ⟨_, rfl⟩
  obtain ⟨payloadSize, hpayload⟩ : ∃ payloadSize, mtu - maxFragOverhead = payloadSize := ⟨_, rfl⟩
  have hmin : min netPkt.length first = first := Nat.min_eq_right (by omega)
  simp only [fragmentPayload, if_neg hroom, hfirst, hmin, hpayload]
  by_cases hmax : options.nMaxFragments < 1 + pieces (netPkt.length - first) payloadSize
  · rw [if_pos hmax]
    exact .inl rfl
  · rw [if_neg hmax]
    obtain ⟨chunks, hflatten, hchunks, hlength, hloop⟩ := populate_rest h
      (by omega : 0 < payloadSize) (by omega : payloadSize + 50 ≤ mtu) netPkt.length 1
      (netPkt.drop first) (by rw [length_drop]; omega) Nat.one_pos
    rw [length_drop] at hlength hloop
    have hcount : (netPkt.take first :: chunks).length =
        1 + pieces (netPkt.length - first) payloadSize := by
      rw [length_cons, hlength, Nat.add_comm]
    have htake : (netPkt.take first).length = first := length_take_of_le (by omega)
    have hsmall : ∀ fragCount, (fragmentOf packet 0 fragCount
        (netPkt.take first)).bodySize + 20 ≤ mtu :=
      fun fragCount => bodySize_fragmentOf_first (by omega)
    have hpieces := pieces_succ (by omega : 0 < netPkt.length - first)
      (by omega : 0 < payloadSize)
    refine .inr ⟨netPkt.take first :: chunks, ⟨?_, ?_, by omega, ?_⟩, by omega, ?_⟩
    · rw [flatten_cons, hflatten, take_append_drop]
    · refine forall_mem_cons.mpr ⟨fun hnil => ?_, fun c hc => (hchunks c hc).1⟩
      rw [hnil, length_nil] at htake
      omega
    · intro i hi
      cases i with
      | zero => exact hsmall _
      | succ i =>
        have hc := hchunks _ (getElem_mem (Nat.lt_of_succ_lt_succ hi))
        exact bodySize_fragmentOf_rest (Nat.succ_pos i)
          ((Nat.add_le_add_right hc.2 50).trans (by omega))
    · rw [hcount, populate_step h h.nonempty (by omega) (hsmall _) (hloop _ rfl), mapIdx_cons]
      simp only [Nat.add_comm 1]
      rfl

/-- **What the fragmenter does**: it fails, or leaves the packet as it is, or
splits it; it runs into none of its assertions. -/
theorem fragmentPacket_cases (h : Carries packet netPkt) (options : FragmenterOptions) (mtu : ℕ) :
    fragmentPacket options packet mtu = .ok none ∨
    (fragmentPacket options packet mtu = .ok (some [packet]) ∧ packet.bodySize + 30 ≤ mtu) ∨
    ∃ chunks, Split packet netPkt mtu chunks ∧ chunks.length ≤ options.nMaxFragments ∧
      fragmentPacket options packet mtu =
        .ok (some (chunks.mapIdx fun i c => fragmentOf packet i chunks.length c)) := by
  obtain ⟨f, value, hf, hheader⟩ := h.header
  have hencode := wireEncode_of_find hf hheader
  have hfragment := find_eq_of_filter h.fragment
  have hget : packet.getFragment = .ok netPkt :=
    get_of_find hfragment (decodeRange_of_ne h.nonempty)
  have hbody := bodySize_eq_of_filter h.fragment
  have hpayload := size_le_of_type (by decide : Field.fragment.tlvType < 253) netPkt
  have hblock := size_block_le packet
  have hsize : packet.bodySize ≤ packet.block.size := by
    rw [Block.size, Block.wire, Tlv.length_element, length_value_block]
    omega
  have hheaders : ((packet.elements.filter fun e => e.type ≠ Field.fragment.tlvType).map
      Block.size).sum = (packet.clear .fragment).bodySize := rfl
  have hoverhead : maxSingleFragOverhead = 30 := rfl
  have htype : packet.block.type = tlvLpPacket := rfl
  rw [fragmentPacket, has_of_find hfragment, has_eq_false h.noIndex, has_eq_false h.noCount]
  simp only [Bool.not_true, Bool.false_eq_true, if_false, hencode, bind, Except.bind]
  by_cases hfast : maxSingleFragOverhead + packet.block.size ≤ mtu
  · rw [if_pos hfast]
    exact .inr (.inl ⟨rfl, by omega⟩)
  · simp only [if_neg hfast, hget, htype, if_true, hheaders]
    obtain hnone | hsplit := fragmentPayload_cases h options
      (by omega : mtu < netPkt.length + (packet.clear .fragment).bodySize + 50)
    · exact .inl hnone
    · exact .inr (.inr hsplit)

end Fragment

end ValProofs.Link
