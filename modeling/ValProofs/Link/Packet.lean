import Mathlib.Algebra.BigOperators.Group.List.Basic
import Mathlib.Algebra.Order.BigOperators.Group.List
import Mathlib.Data.List.Sort
import ValProofs.Link.Header

/-!
`lp::Packet`: a list of fields, which are TLV elements kept in the order the
protocol prescribes, the fragment last.

A field is found by its type, added at its place and encoded with the others
into one block; decoding a block checks the order. The packets that are built by
adding fields are well formed, so that they are decoded from their encoding, and
a field of such a packet is read by the lemmas on `find` without a look at the
list.
-/

namespace ValProofs.Link

open Lib List Block

/-- How a call ends that does not return. A `tlv::Error` is what the handlers of
the link service catch. -/
inductive Failure
  | tlvError (error : Tlv.Error)
  | exception (what : String)
  | assertion (expression : String)
  | undefined (what : String)
  deriving DecidableEq, Repr

/-- A block together with the octets it was read from. -/
structure WireBlock extends Block where
  octets : List UInt8
  deriving DecidableEq, Repr

/-- A block with the octets the encoder writes for it. -/
def WireBlock.ofBlock (block : Block) : WireBlock := { block with octets := block.wire }

/-- `Block(buf, bufSize)`; what follows the first element is not looked at. -/
def readBlock (octets : List UInt8) : Except Tlv.Error WireBlock := do
  let (block, rest) ← Tlv.readElement Block.mk
    (fun _ => ⟨"Not enough bytes in the buffer to fully parse TLV"⟩) octets
  return { block with octets := octets.take (octets.length - rest.length) }

theorem readBlock_wire {block : Block} (h : block.Fits) :
    readBlock block.wire = .ok (.ofBlock block) := by
  have hread : Tlv.readElement mk
      (fun _ => ⟨"Not enough bytes in the buffer to fully parse TLV"⟩) (block.wire ++ []) =
      .ok (block, []) :=
    Tlv.readElement_element h.1 h.2 []
  rw [append_nil] at hread
  simp only [readBlock, hread, bind, Except.bind, length_nil, Nat.sub_zero, take_length]
  rfl

def tlvInterest : ℕ := 5

def tlvData : ℕ := 6

def tlvLpPacket : ℕ := 100

/-! ### Fields -/

/-- The fields of `FieldSet`. -/
inductive Field
  | fragment
  | sequence
  | fragIndex
  | fragCount
  | hopCountTag
  | nack
  | nextHopFaceId
  | incomingFaceId
  | cachePolicy
  | congestionMark
  | ack
  | txSequence
  | nonDiscovery
  | prefixAnnouncement
  | valHeader
  deriving DecidableEq, Repr

namespace Field

def tlvType : Field → ℕ
  | .fragment => 80
  | .sequence => 81
  | .fragIndex => 82
  | .fragCount => 83
  | .hopCountTag => 84
  | .nack => 800
  | .nextHopFaceId => 816
  | .incomingFaceId => 817
  | .cachePolicy => 820
  | .congestionMark => 832
  | .ack => 836
  | .txSequence => 840
  | .nonDiscovery => 844
  | .prefixAnnouncement => 848
  | .valHeader => 850

def ofType? : ℕ → Option Field
  | 80 => some .fragment
  | 81 => some .sequence
  | 82 => some .fragIndex
  | 83 => some .fragCount
  | 84 => some .hopCountTag
  | 800 => some .nack
  | 816 => some .nextHopFaceId
  | 817 => some .incomingFaceId
  | 820 => some .cachePolicy
  | 832 => some .congestionMark
  | 836 => some .ack
  | 840 => some .txSequence
  | 844 => some .nonDiscovery
  | 848 => some .prefixAnnouncement
  | 850 => some .valHeader
  | _ => none

def isRepeatable : Field → Bool
  | .ack => true
  | _ => false

/-- The sort order of the location: `1` for the header, `2` for the fragment. -/
def locationSortOrder : Field → ℕ
  | .fragment => 2
  | _ => 1

@[simp] theorem ofType?_tlvType (f : Field) : ofType? f.tlvType = some f := by
  cases f <;> rfl

theorem tlvType_injective {f g : Field} (h : f.tlvType = g.tlvType) : f = g := by
  have hsome : some f = some g := by rw [← ofType?_tlvType f, h, ofType?_tlvType]
  exact Option.some.inj hsome

theorem tlvType_lt (f : Field) : f.tlvType < 2 ^ 32 := by
  cases f <;> decide

end Field

structure FieldInfo where
  tlvType : ℕ
  isRecognized : Bool
  canIgnore : Bool
  isRepeatable : Bool
  locationSortOrder : ℕ
  deriving DecidableEq, Repr

namespace FieldInfo

/-- An unknown field can be ignored if its type is in the range of the headers
of three octets and its low two bits are zero. -/
def ofType (type : ℕ) : FieldInfo :=
  match Field.ofType? type with
  | some f => ⟨type, true, false, f.isRepeatable, f.locationSortOrder⟩
  | none => ⟨type, false, 800 ≤ type && type ≤ 959 && type % 4 == 0, false, 1⟩

/-- `compareFieldSortOrder`. -/
def before (first second : FieldInfo) : Bool :=
  first.locationSortOrder < second.locationSortOrder ||
    (first.locationSortOrder == second.locationSortOrder && first.tlvType < second.tlvType)

@[simp] theorem tlvType_ofType (type : ℕ) : (ofType type).tlvType = type := by
  unfold ofType
  split <;> rfl

end FieldInfo

open FieldInfo

/-- `comparePos`: a field of type `first` belongs in front of `second`. -/
def comparePos (first : ℕ) (second : Block) : Bool :=
  (FieldInfo.ofType first).before (FieldInfo.ofType second.type)

theorem comparePos_iff {first : ℕ} {second : Block} :
    comparePos first second ↔
      (ofType first).locationSortOrder <
          (ofType second.type).locationSortOrder ∨
        ((ofType first).locationSortOrder =
          (ofType second.type).locationSortOrder ∧ first < second.type) := by
  simp [comparePos, before]

variable {a b : Block}

theorem comparePos_trans {c : Block} (hab : comparePos a.type b) (hbc : comparePos b.type c) :
    comparePos a.type c := by
  rw [comparePos_iff] at hab hbc ⊢
  omega

theorem comparePos_of_not (hne : a.type ≠ b.type) (h : ¬ comparePos a.type b) :
    comparePos b.type a := by
  rw [comparePos_iff] at h ⊢
  omega

theorem ne_of_comparePos (h : comparePos a.type b) : a.type ≠ b.type := by
  rw [comparePos_iff] at h
  intro hab
  rw [hab] at h
  omega

/-! ### Packets -/

/-- `lp::Packet`, as the sub-elements of its block. -/
structure Packet where
  elements : List Block
  deriving DecidableEq, Repr

namespace Packet

/-- The value of the first field of the kind. -/
def find (packet : Packet) (f : Field) : Option (List UInt8) :=
  (packet.elements.find? fun e => e.type = f.tlvType).map Block.value

def has (packet : Packet) (f : Field) : Bool := (packet.find f).isSome

/-- `get<FIELD>()`, with the decoder of the field. -/
def get {α : Type} (packet : Packet) (f : Field)
    (decode : ℕ → List UInt8 → Except Tlv.Error α) : Except Failure α :=
  match packet.find f with
  | none => .error (.exception "Index out of range")
  | some value => (decode f.tlvType value).mapError .tlvError

/-- The packet with the field at its place: before the first field that sorts
after it. -/
def insert (packet : Packet) (f : Field) (value : List UInt8) : Packet :=
  ⟨packet.elements.orderedInsert (fun a b => comparePos a.type b) ⟨f.tlvType, value⟩⟩

def add (packet : Packet) (f : Field) (value : List UInt8) : Except Failure Packet :=
  if !f.isRepeatable && packet.has f then .error (.exception "Field cannot be repeated")
  else .ok (packet.insert f value)

def clear (packet : Packet) (f : Field) : Packet :=
  ⟨packet.elements.filter fun e => e.type ≠ f.tlvType⟩

def set (packet : Packet) (f : Field) (value : List UInt8) : Except Failure Packet :=
  (packet.clear f).add f value

/-- The block of type `LpPacket` with the fields. -/
def block (packet : Packet) : Block := ⟨tlvLpPacket, packet.elements.flatMap Block.wire⟩

/-- `wireEncode()`, with the `elements()` of the block it returns. A packet that
is a fragment and nothing else is encoded as the network packet in it, which is
not parsed further. -/
def wireEncode (packet : Packet) : Except Failure (Block × List Block) :=
  match packet.elements with
  | [element] =>
      if element.type = Field.fragment.tlvType then
        match element.parse with
        | .error error => .error (.tlvError error)
        | .ok [] => .error (.undefined "front() of an empty vector")
        | .ok (netPkt :: _) => .ok (netPkt, [])
      else .ok (packet.block, packet.elements)
  | _ => .ok (packet.block, packet.elements)

/-- The loop of `wireDecode`; `prev` is the field before, if there is one. -/
def checkFields : Option FieldInfo → List Block → Except Tlv.Error Unit
  | _, [] => .ok ()
  | prev, element :: elements =>
      let info := FieldInfo.ofType element.type
      if !info.isRecognized && !info.canIgnore then
        .error ⟨"unrecognized field " ++ toString element.type ++ " cannot be ignored"⟩
      else
        match prev with
        | none => checkFields (some info) elements
        | some prev =>
            if info.tlvType == prev.tlvType && !info.isRepeatable then
              .error ⟨"non-repeatable field " ++ toString element.type ++ " cannot be repeated"⟩
            else if info.tlvType != prev.tlvType && !prev.before info then
              .error ⟨"fields are not in correct sort order"⟩
            else checkFields (some info) elements

/-- `Packet(wire)`. A bare network packet becomes the fragment of a packet with
no other field. -/
def wireDecode (wire : WireBlock) : Except Tlv.Error Packet :=
  if wire.type = tlvInterest ∨ wire.type = tlvData then
    .ok ⟨[⟨Field.fragment.tlvType, wire.octets⟩]⟩
  else if wire.type ≠ tlvLpPacket then
    .error ⟨"unrecognized TLV-TYPE " ++ toString wire.type⟩
  else do
    let elements ← wire.parse
    checkFields none elements
    return ⟨elements⟩

/-! ### Decoders of the fields -/

def decodeNonNegativeInteger (_ : ℕ) (value : List UInt8) : Except Tlv.Error ℕ :=
  Tlv.readNonNegativeInteger value

def decodeUInt64 (type : ℕ) (value : List UInt8) : Except Tlv.Error UInt64 :=
  if value.length ≠ 8 then
    .error ⟨"NDNLP field of TLV-TYPE " ++ toString type ++ " should contain a 64-bit integer"⟩
  else .ok (UInt64.ofNat (ofBigEndian value))

def decodeRange (type : ℕ) (value : List UInt8) : Except Tlv.Error (List UInt8) :=
  if value = [] then
    .error ⟨"NDNLP field of TLV-TYPE " ++ toString type ++ " cannot be empty"⟩
  else .ok value

def decodeEmptyValue (type : ℕ) (value : List UInt8) : Except Tlv.Error Unit :=
  if value ≠ [] then
    .error ⟨"NDNLP field of TLV-TYPE " ++ toString type ++ " must be empty"⟩
  else .ok ()

def encodeUInt64 (n : UInt64) : List UInt8 := bigEndian 8 n.toNat

def getFragment (packet : Packet) : Except Failure (List UInt8) :=
  packet.get .fragment decodeRange

/-- The part of the network packet in an LpPacket. -/
def payload (packet : Packet) : List UInt8 := (packet.find .fragment).getD []

def getSequence (packet : Packet) : Except Failure UInt64 := packet.get .sequence decodeUInt64

variable {packet : Packet} {f : Field} {value : List UInt8}

theorem get_of_find {α : Type} {decode : ℕ → List UInt8 → Except Tlv.Error α} {a : α}
    (hfind : packet.find f = some value) (hdecode : decode f.tlvType value = .ok a) :
    packet.get f decode = .ok a := by
  rw [get, hfind]
  simp only [hdecode, Except.mapError]

theorem decodeUInt64_encodeUInt64 (type : ℕ) (n : UInt64) :
    decodeUInt64 type (encodeUInt64 n) = .ok n := by
  have hlength : (encodeUInt64 n).length = 8 := length_bigEndian 8 n.toNat
  rw [decodeUInt64, if_neg (not_not.mpr hlength), encodeUInt64,
    ofBigEndian_bigEndian (by simpa using n.toNat_lt), UInt64.ofNat_toNat]

theorem decodeRange_of_ne {type : ℕ} (h : value ≠ []) :
    decodeRange type value = .ok value := if_neg h

/-! ### Finding fields -/

variable {g : Field}

theorem find_insert_of_ne (h : g ≠ f) : (packet.insert f value).find g = packet.find g := by
  obtain ⟨elements⟩ := packet
  have hne : ¬ f.tlvType = g.tlvType := fun h' => h (Field.tlvType_injective h').symm
  simp only [find, insert]
  congr 1
  induction elements with
  | nil => simp [hne]
  | cons e elements ih =>
    rw [orderedInsert_cons]
    split
    · rw [find?_cons_of_neg (by simpa using hne)]
    · rw [find?_cons, find?_cons, ih]

theorem find_insert_self (h : packet.find f = none) :
    (packet.insert f value).find f = some value := by
  obtain ⟨elements⟩ := packet
  simp only [find, Option.map_eq_none_iff] at h
  simp only [find, insert]
  induction elements with
  | nil => simp
  | cons e elements ih =>
    rw [find?_cons] at h
    split at h
    · cases h
    · rename_i he
      rw [orderedInsert_cons]
      split
      · simp
      · rw [find?_cons, he]
        exact ih h

@[simp] theorem find_clear_self (packet : Packet) (f : Field) : (packet.clear f).find f = none := by
  simp [find, clear, find?_eq_none]

@[simp] theorem find_clear_of_ne (h : g ≠ f) : (packet.clear f).find g = packet.find g := by
  have hgf : ¬ g.tlvType = f.tlvType := fun h' => h (Field.tlvType_injective h')
  have hand : (fun e : Block => decide (decide (e.type ≠ f.tlvType) = true ∧
      decide (e.type = g.tlvType) = true)) = fun e => decide (e.type = g.tlvType) := by
    funext e
    by_cases hg : e.type = g.tlvType
    · simp [hg, hgf]
    · simp [hg]
  rw [find, clear, find?_filter, hand, find]

theorem has_eq_false (h : packet.find f = none) : packet.has f = false := by
  rw [has, h]
  rfl

theorem has_of_find (h : packet.find f = some value) : packet.has f = true := by
  rw [has, h]
  rfl

theorem add_of_find (h : packet.find f = none) (value : List UInt8) :
    packet.add f value = .ok (packet.insert f value) := by
  rw [add, has_eq_false h, Bool.and_false]
  rfl

theorem set_eq (packet : Packet) (f : Field) (value : List UInt8) :
    packet.set f value = .ok ((packet.clear f).insert f value) :=
  add_of_find (find_clear_self packet f) value

/-- The packet `set` leaves. -/
def put (packet : Packet) (f : Field) (value : List UInt8) : Packet :=
  (packet.clear f).insert f value

@[simp] theorem find_put_self (packet : Packet) (f : Field) (value : List UInt8) :
    (packet.put f value).find f = some value :=
  find_insert_self (find_clear_self packet f)

@[simp] theorem find_put_of_ne (h : g ≠ f) : (packet.put f value).find g = packet.find g := by
  rw [put, find_insert_of_ne h, find_clear_of_ne h]

/-! ### Well-formed packets -/

/-- The fields are known, in order and not repeated. -/
structure WellFormed (packet : Packet) : Prop where
  ordered : packet.elements.Pairwise fun a b => comparePos a.type b
  known : ∀ e ∈ packet.elements, ∃ f : Field, e.type = f.tlvType

variable {e : Block}

theorem find_eq_none_iff : packet.find f = none ↔ ∀ e ∈ packet.elements, e.type ≠ f.tlvType := by
  simp [find, find?_eq_none]

theorem pairwise_orderedInsert {elements : List Block}
    (h : elements.Pairwise fun a b => comparePos a.type b) (hne : ∀ x ∈ elements, x.type ≠ e.type) :
    (elements.orderedInsert (fun a b => comparePos a.type b) e).Pairwise
      fun a b => comparePos a.type b := by
  induction elements with
  | nil => simp
  | cons x elements ih =>
    obtain ⟨hx, hrest⟩ := pairwise_cons.mp h
    obtain ⟨hxe, hne⟩ := forall_mem_cons.mp hne
    rw [orderedInsert_cons]
    split
    · rename_i hbefore
      refine pairwise_cons.mpr ⟨forall_mem_cons.mpr ⟨hbefore, fun y hy => ?_⟩, h⟩
      exact comparePos_trans hbefore (hx y hy)
    · rename_i hbefore
      refine pairwise_cons.mpr ⟨fun y hy => ?_, ih hrest hne⟩
      obtain rfl | hy := (mem_orderedInsert _).mp hy
      · exact comparePos_of_not hxe.symm hbefore
      · exact hx y hy

theorem WellFormed.insert (h : packet.WellFormed) (hfind : packet.find f = none)
    (value : List UInt8) : (packet.insert f value).WellFormed where
  ordered := pairwise_orderedInsert h.ordered (find_eq_none_iff.mp hfind)
  known := by
    intro e he
    obtain rfl | he := (mem_orderedInsert ..).mp he
    · exact ⟨f, rfl⟩
    · exact h.known e he

theorem WellFormed.clear (h : packet.WellFormed) (f : Field) : (packet.clear f).WellFormed where
  ordered := h.ordered.filter _
  known := fun e he => h.known e (mem_of_mem_filter he)

theorem WellFormed.put (h : packet.WellFormed) (f : Field) (value : List UInt8) :
    (packet.put f value).WellFormed :=
  (h.clear f).insert (find_clear_self packet f) value

theorem wellFormed_fragment (octets : List UInt8) :
    WellFormed ⟨[⟨Field.fragment.tlvType, octets⟩]⟩ where
  ordered := pairwise_singleton _ _
  known := forall_mem_singleton.mpr ⟨.fragment, rfl⟩

theorem wellFormed_nil : WellFormed ⟨[]⟩ where
  ordered := Pairwise.nil
  known := forall_mem_nil _

theorem checkFields_some {prev : Block} {elements : List Block}
    (hordered : (prev :: elements).Pairwise fun a b => comparePos a.type b)
    (hknown : ∀ e ∈ elements, ∃ f : Field, e.type = f.tlvType) :
    checkFields (some (ofType prev.type)) elements = .ok () := by
  induction elements generalizing prev with
  | nil => rfl
  | cons e elements ih =>
    obtain ⟨hprev, hrest⟩ := pairwise_cons.mp hordered
    obtain ⟨⟨f, hf⟩, hknown⟩ := forall_mem_cons.mp hknown
    have hbefore := hprev e (mem_cons_self ..)
    have hne : ¬ e.type = prev.type := (ne_of_comparePos hbefore).symm
    have hrecognized : (ofType e.type).isRecognized = true := by
      rw [hf, ofType, Field.ofType?_tlvType]
    have hbefore : (ofType prev.type).before (ofType e.type) = true := hbefore
    rw [checkFields]
    simp [hrecognized, hne, hbefore, ih hrest hknown]

theorem checkFields_of_wellFormed (h : packet.WellFormed) :
    checkFields none packet.elements = .ok () := by
  obtain ⟨elements⟩ := packet
  cases elements with
  | nil => rfl
  | cons e elements =>
    obtain ⟨⟨f, hf⟩, hknown⟩ := forall_mem_cons.mp h.known
    have hrecognized : (ofType e.type).isRecognized = true := by
      rw [hf, ofType, Field.ofType?_tlvType]
    rw [checkFields]
    simp [hrecognized, checkFields_some h.ordered hknown]

/-! ### Sizes -/

/-- The octets of all fields together. -/
def bodySize (packet : Packet) : ℕ := (packet.elements.map Block.size).sum

theorem length_value_block (packet : Packet) : packet.block.value.length = packet.bodySize := by
  rw [block, bodySize, length_flatMap]
  rfl

theorem bodySize_insert (packet : Packet) (f : Field) (value : List UInt8) :
    (packet.insert f value).bodySize = size ⟨f.tlvType, value⟩ + packet.bodySize := by
  have hperm := perm_orderedInsert (fun a b : Block => comparePos a.type b = true)
    ⟨f.tlvType, value⟩ packet.elements
  rw [bodySize, insert, (hperm.map size).sum_eq, map_cons, sum_cons, bodySize]

theorem bodySize_clear_insert_of_ne (h : f ≠ g) :
    ((packet.insert f value).clear g).bodySize =
      size ⟨f.tlvType, value⟩ + (packet.clear g).bodySize := by
  have hperm := (perm_orderedInsert (fun a b : Block => comparePos a.type b = true)
    ⟨f.tlvType, value⟩ packet.elements).filter fun e => e.type ≠ g.tlvType
  have hkeep : f.tlvType ≠ g.tlvType := fun h' => h (Field.tlvType_injective h')
  rw [filter_cons, if_pos (decide_eq_true hkeep)] at hperm
  rw [bodySize, clear, insert, (hperm.map size).sum_eq, map_cons, sum_cons, bodySize, clear]

theorem bodySize_clear_le (packet : Packet) (f : Field) :
    (packet.clear f).bodySize ≤ packet.bodySize :=
  (filter_sublist.map size).sum_le_sum fun _ _ => Nat.zero_le _

theorem bodySize_put_le (packet : Packet) (f : Field) (value : List UInt8) :
    (packet.put f value).bodySize ≤ size ⟨f.tlvType, value⟩ + packet.bodySize := by
  rw [put, bodySize_insert]
  exact Nat.add_le_add_left (bodySize_clear_le packet f) _

theorem size_block_le (packet : Packet) : packet.block.size ≤ packet.bodySize + 10 := by
  have hlength := Tlv.length_varNumber_le packet.block.value.length
  have htype : (Tlv.varNumber packet.block.type).length = 1 :=
    Tlv.length_varNumber_of_lt (by decide : tlvLpPacket < 253)
  rw [size, wire, Tlv.length_element, htype, length_value_block]
  rw [length_value_block] at hlength
  omega

theorem length_value_le (h : e ∈ packet.elements) : e.value.length ≤ packet.bodySize := by
  have hsize : e.value.length ≤ e.size := by
    rw [size, wire, Tlv.length_element]
    omega
  exact hsize.trans (le_sum_of_mem (mem_map_of_mem h))

/-! ### What was encoded is decoded -/

/-- **The packet's round trip.** -/
theorem wireDecode_block (h : packet.WellFormed) (hsize : packet.bodySize < 2 ^ 64) :
    wireDecode (WireBlock.ofBlock packet.block) = .ok packet := by
  have hfits : ∀ e ∈ packet.elements, e.Fits := by
    intro e he
    obtain ⟨f, hf⟩ := h.known e he
    exact ⟨hf ▸ f.tlvType_lt, (length_value_le he).trans_lt hsize⟩
  have hparse : (WireBlock.ofBlock packet.block).parse = .ok packet.elements :=
    parse_flatMap_wire hfits
  have htype : (WireBlock.ofBlock packet.block).type = tlvLpPacket := rfl
  rw [wireDecode, htype, if_neg (by decide), if_neg (by decide), hparse]
  simp only [bind, Except.bind, checkFields_of_wellFormed h]
  rfl

theorem wireEncode_of_find (hf : f ≠ .fragment) (h : packet.find f = some value) :
    packet.wireEncode = .ok (packet.block, packet.elements) := by
  unfold wireEncode
  split
  · rename_i e he
    split
    · rename_i htype
      -- the only element would have both types
      simp only [find, he, find?_cons, find?_nil] at h
      split at h
      · rename_i htype'
        exact absurd (Field.tlvType_injective ((of_decide_eq_true htype').symm.trans htype)) hf
      · cases h
    · rfl
  · rfl

end Packet

end ValProofs.Link
