import ValProofs.Lib.OctetStream
import ValProofs.Link.Header

/-!
`BlockHeader`: a block as the header of a packet.

What is written are the octets that the block was parsed from, with its type and its length in
whatever form they had. What is read is written anew into a buffer, in the shortest form, and the
size of this buffer is returned as the number of octets that the header takes. So the block is
always read back, but from a form that is not the shortest too few octets are removed.
-/

namespace ValProofs

open Lib Tlv List

namespace Link

/-- The block of a buffer: `Block(ConstBufferPtr)`. -/
def blockOfBuffer (octets : List UInt8) : Except Tlv.Error Block := do
  if octets.isEmpty then throw ⟨"buffer is empty"⟩
  let (type, afterType) ← Tlv.readType octets
  let (length, value) ← Tlv.readVarNumber afterType
  if length ≠ value.length then throw ⟨"TLV-LENGTH doesn't match buffer size"⟩
  return ⟨type, value⟩

/-- `m_block`: a block with the buffer that it was made of. -/
structure BlockHeader where
  octets : List UInt8
  block : Block
  parsed : blockOfBuffer octets = .ok block

def maxNdnPacketSize : ℕ := 8800

def sizeOfVarNumber (number : ℕ) : ℕ :=
  if number < 253 then 1
  else if number ≤ 65535 then 3
  else if number ≤ 4294967295 then 5
  else 9

/-- A `uint64_t` as a `std::streamsize`. -/
def streamsize (length : ℕ) : ℤ := if length < 2 ^ 63 then length else length - 2 ^ 64

/-- The octet that was extracted too much is put back into the stream. -/
def putbackValue (begin : OctetIter) : OctetStream :=
  match begin.value with
  | some octet => begin.stream.putback octet
  | none => begin.stream

/-- The second half of `Block::fromStream`, after the type and the length. The sum that is compared
with the limit has 64 bits. -/
def fromStreamValue (type length : ℕ) (begin : OctetIter) : Except Tlv.Error (List UInt8) :=
  let is := putbackValue begin
  let tlSize := sizeOfVarNumber type + sizeOfVarNumber length
  if maxNdnPacketSize < (tlSize + length) % 2 ^ 64 then
    .error ⟨"TLV-LENGTH from stream exceeds limit"⟩
  else
    let value := is.read (streamsize length)
    if length ≠ value.length then
      .error ⟨"Not enough bytes from stream to fully parse TLV"⟩
    else .ok (Tlv.varNumber type ++ (Tlv.varNumber length ++ value))

/-- `Block::fromStream`, up to the buffer that the block is made of. -/
def fromStream (is : OctetStream) : Except Tlv.Error (List UInt8) := do
  let (type, begin) ← (OctetIter.advance is).readType
  let (length, begin) ← begin.readVarNumber
  fromStreamValue type length begin

namespace BlockHeader

def getSerializedSize (header : BlockHeader) : ℕ := header.octets.length

/-- What is written to the buffer. -/
def serialize (header : BlockHeader) : List UInt8 := header.octets

/-- The block that is made of a buffer. -/
def ofBuffer (octets : List UInt8) : Except Tlv.Error BlockHeader :=
  match parsed : blockOfBuffer octets with
  | .error e => .error e
  | .ok block => .ok ⟨octets, block, parsed⟩

/-- The header, and the number of octets that are removed from the packet. -/
def deserialize (start : List UInt8) : Except Tlv.Error (BlockHeader × ℕ) := do
  let buffer ← fromStream (.ofOctets start)
  let header ← ofBuffer buffer
  return (header, header.getSerializedSize)

end BlockHeader

/-- The number of octets in front that make up one element. -/
def tlvSize (octets : List UInt8) : Except Tlv.Error ℕ := do
  let (_, afterType) ← Tlv.readType octets
  let (length, value) ← Tlv.readVarNumber afterType
  return octets.length - value.length + length

/-! ### One element -/

theorem sizeOfVarNumber_eq (number : ℕ) : sizeOfVarNumber number = (varNumber number).length := by
  unfold sizeOfVarNumber varNumber
  split_ifs <;> first | rfl | omega

variable {octets afterType : List UInt8} {type : ℕ}

theorem readVarNumber_of_readType (h : Tlv.readType octets = .ok (type, afterType)) :
    readVarNumber octets = .ok (type, afterType) ∧ type < 2 ^ 32 := by
  unfold Tlv.readType at h
  cases hnumber : readVarNumber octets with
  | error e =>
    rw [hnumber] at h
    cases h
  | ok result =>
    simp only [hnumber, bind, Except.bind] at h
    split at h
    · cases h
    · rename_i hlt
      cases h
      exact ⟨rfl, Nat.not_le.mp hlt⟩

/-- The type, the length and what follows them are read from the octets. -/
structure Reads (octets : List UInt8) (type length : ℕ) (afterType rest : List UInt8) : Prop where
  readType : Tlv.readType octets = .ok (type, afterType)
  readLength : Tlv.readVarNumber afterType = .ok (length, rest)

variable {rest : List UInt8} {length : ℕ}

theorem Reads.append (h : Reads octets type length afterType rest) (more : List UInt8) :
    Reads (octets ++ more) type length (afterType ++ more) (rest ++ more) := by
  obtain ⟨hnumber, htype⟩ := readVarNumber_of_readType h.readType
  refine ⟨?_, Tlv.readVarNumber_append h.readLength more⟩
  simp only [Tlv.readType, Tlv.readVarNumber_append hnumber more, bind, Except.bind,
    if_neg (Nat.not_le.mpr htype)]
  rfl

/-- The codes of the type and of the length, which are the shortest ones or longer. -/
theorem Reads.exists_codes (h : Reads octets type length afterType rest) :
    ∃ typeCode lengthCode, octets = typeCode ++ (lengthCode ++ rest) ∧
      sizeOfVarNumber type ≤ typeCode.length ∧ sizeOfVarNumber length ≤ lengthCode.length ∧
      (typeCode.length = sizeOfVarNumber type → typeCode = varNumber type) ∧
      (lengthCode.length = sizeOfVarNumber length → lengthCode = varNumber length) := by
  obtain ⟨hnumber, -⟩ := readVarNumber_of_readType h.readType
  obtain ⟨typeCode, rfl, htypeLe, htypeEq⟩ := exists_of_readVarNumber hnumber
  obtain ⟨lengthCode, rfl, hlengthLe, hlengthEq⟩ := exists_of_readVarNumber h.readLength
  rw [← sizeOfVarNumber_eq] at htypeLe htypeEq hlengthLe hlengthEq
  exact ⟨typeCode, lengthCode, rfl, htypeLe, hlengthLe, htypeEq, hlengthEq⟩

theorem reads_element {value : List UInt8} (htype : type < 2 ^ 32) (hvalue : value.length < 2 ^ 64)
    (rest : List UInt8) :
    Reads (element type value ++ rest) type value.length
      (varNumber value.length ++ (value ++ rest)) (value ++ rest) := by
  constructor
  · rw [element, append_assoc, append_assoc]
    exact readType_varNumber htype _
  · exact readVarNumber_varNumber hvalue _

theorem tlvSize_of_reads (h : Reads octets type length afterType rest) :
    tlvSize octets = .ok (octets.length - rest.length + length) := by
  simp only [tlvSize, h.readType, h.readLength, bind, Except.bind]
  rfl

theorem blockOfBuffer_ok_iff {block : Block} :
    blockOfBuffer octets = .ok block ↔
      ∃ afterType, Reads octets block.type block.value.length afterType block.value := by
  unfold blockOfBuffer
  constructor
  · intro h
    cases octets with
    | nil => cases h
    | cons first octets =>
      simp only [isEmpty_cons, Bool.false_eq_true, if_false] at h
      cases htype : Tlv.readType (first :: octets) with
      | error e =>
        rw [htype] at h
        cases h
      | ok result =>
        simp only [htype, bind, Except.bind] at h
        cases hlength : readVarNumber result.2 with
        | error e =>
          rw [hlength] at h
          cases h
        | ok result' =>
          simp only [hlength] at h
          split at h
          · cases h
          · rename_i heq
            cases h
            refine ⟨result.2, htype, hlength.trans ?_⟩
            rw [← not_not.mp heq]
  · rintro ⟨afterType, hreads⟩
    cases octets with
    | nil => cases hreads.readType
    | cons first octets =>
      simp only [isEmpty_cons, Bool.false_eq_true, if_false, hreads.readType,
        hreads.readLength, bind, Except.bind, ne_eq, not_true_eq_false]
      rfl

/-! ### Reading from the stream -/

/-- What is left is read, if the stream has not failed; if it has there is nothing left. -/
theorem read_putbackValue (rest : List UInt8) (n : ℤ) :
    (putbackValue (OctetIter.before rest)).read n = rest.take n.toNat := by
  cases rest with
  | nil => exact take_nil.symm
  | cons octet rest => rfl

/-- A length that is negative as a `std::streamsize`, or that makes the sum wrap around, is never
accepted. -/
theorem fromStreamValue_ok_iff (hlength : length < 2 ^ 64) {buffer : List UInt8} :
    fromStreamValue type length (OctetIter.before rest) = .ok buffer ↔
      sizeOfVarNumber type + sizeOfVarNumber length + length ≤ maxNdnPacketSize ∧
        length ≤ rest.length ∧ buffer = element type (rest.take length) := by
  have hsizes : sizeOfVarNumber type + sizeOfVarNumber length ≤ 18 := by
    have htype := length_varNumber_le type
    have hnumber := length_varNumber_le length
    rw [sizeOfVarNumber_eq, sizeOfVarNumber_eq]
    omega
  have hlimit : maxNdnPacketSize = 8800 := rfl
  rw [fromStreamValue, read_putbackValue, streamsize]
  dsimp only
  by_cases hsmall : length < 2 ^ 63
  · have hmod : (sizeOfVarNumber type + sizeOfVarNumber length + length) % 2 ^ 64 =
        sizeOfVarNumber type + sizeOfVarNumber length + length := Nat.mod_eq_of_lt (by omega)
    rw [if_pos hsmall, hmod, Int.toNat_natCast, length_take]
    split
    · rename_i hover
      constructor
      · intro h
        cases h
      · exact fun h => absurd h.1 (Nat.not_le.mpr hover)
    · rename_i hover
      by_cases hlong : length ≤ rest.length
      · rw [if_neg (not_not.mpr (Nat.min_eq_left hlong).symm), element, length_take,
          Nat.min_eq_left hlong, Except.ok.injEq, eq_comm]
        exact ⟨fun h => ⟨Nat.not_lt.mp hover, hlong, h⟩, fun h => h.2.2⟩
      · rw [if_pos (by omega)]
        constructor
        · intro h
          cases h
        · exact fun h => absurd h.2.1 hlong
  · have hnegative : ((length : ℤ) - 2 ^ 64).toNat = 0 := by omega
    rw [if_neg hsmall, hnegative, take_zero, length_nil]
    constructor
    · intro h
      split at h
      · cases h
      · rw [if_pos (by omega)] at h
        cases h
    · exact fun h => absurd h.1 (by omega)

/-- What is accepted: an element that is short enough and all there. -/
theorem fromStream_ok_iff {buffer : List UInt8} :
    fromStream (.ofOctets octets) = .ok buffer ↔
      ∃ type length afterType rest, Reads octets type length afterType rest ∧
        sizeOfVarNumber type + sizeOfVarNumber length + length ≤ maxNdnPacketSize ∧
        length ≤ rest.length ∧ buffer = element type (rest.take length) := by
  rw [fromStream, OctetIter.advance_ofOctets, OctetIter.readType_before]
  constructor
  · intro h
    cases htype : Tlv.readType octets with
    | error e =>
      rw [htype] at h
      cases h
    | ok result =>
      simp only [htype, Except.map, bind, Except.bind, OctetIter.readVarNumber_before] at h
      cases hnumber : readVarNumber result.2 with
      | error e =>
        rw [hnumber] at h
        cases h
      | ok result' =>
        simp only [hnumber] at h
        have hlength : result'.1 < 2 ^ 64 := lt_of_readVarNumber hnumber
        exact ⟨result.1, result'.1, result.2, result'.2, ⟨htype, hnumber⟩,
          (fromStreamValue_ok_iff hlength).mp h⟩
  · rintro ⟨type, length, afterType, rest, hreads, haccepted⟩
    have hlength := lt_of_readVarNumber hreads.readLength
    simp only [hreads.readType, Except.map, bind, Except.bind, OctetIter.readVarNumber_before,
      hreads.readLength]
    exact (fromStreamValue_ok_iff hlength).mpr haccepted

/-! ### The header -/

namespace BlockHeader

theorem ofBuffer_eq {block : Block} (parsed : blockOfBuffer octets = .ok block) :
    ofBuffer octets = .ok ⟨octets, block, parsed⟩ := by
  unfold ofBuffer
  split
  · rename_i e herror
    rw [parsed] at herror
    cases herror
  · rename_i block' hok
    rw [parsed] at hok
    cases hok
    rfl

theorem blockOfBuffer_element {value : List UInt8} (htype : type < 2 ^ 32)
    (hvalue : value.length < 2 ^ 64) : blockOfBuffer (element type value) = .ok ⟨type, value⟩ := by
  have hreads := reads_element htype hvalue []
  rw [append_nil, append_nil] at hreads
  exact blockOfBuffer_ok_iff.mpr ⟨_, hreads⟩

/-- What is returned for octets that are accepted. -/
theorem deserialize_ok_iff {start : List UInt8} {header : BlockHeader} {size : ℕ} :
    deserialize start = .ok (header, size) ↔
      ∃ type length afterType rest, Reads start type length afterType rest ∧
        sizeOfVarNumber type + sizeOfVarNumber length + length ≤ maxNdnPacketSize ∧
        length ≤ rest.length ∧ header.block = ⟨type, rest.take length⟩ ∧
        header.octets = header.block.wire ∧ size = header.block.size := by
  constructor
  · intro h
    unfold deserialize at h
    cases hstream : fromStream (.ofOctets start) with
    | error e =>
      rw [hstream] at h
      cases h
    | ok buffer =>
      obtain ⟨type, length, afterType, rest, hreads, hlimit, hlong, rfl⟩ :=
        fromStream_ok_iff.mp hstream
      have htype := (readVarNumber_of_readType hreads.readType).2
      have hvalue : (rest.take length).length < 2 ^ 64 :=
        Nat.lt_of_le_of_lt (length_take_le ..) (lt_of_readVarNumber hreads.readLength)
      rw [hstream] at h
      simp only [bind, Except.bind, ofBuffer_eq (blockOfBuffer_element htype hvalue)] at h
      cases h
      exact ⟨type, length, afterType, rest, hreads, hlimit, hlong, rfl, rfl, rfl⟩
  · rintro ⟨type, length, afterType, rest, hreads, hlimit, hlong, hblock, hoctets, rfl⟩
    obtain ⟨octets, block, parsed⟩ := header
    dsimp only at hblock hoctets
    subst hblock
    subst hoctets
    have hstream := fromStream_ok_iff.mpr
      ⟨type, length, afterType, rest, hreads, hlimit, hlong, rfl⟩
    simp only [deserialize, hstream, bind, Except.bind]
    exact congrArg (fun result => result.bind fun header => .ok (header, header.getSerializedSize))
      (ofBuffer_eq parsed)

/-- A block that was written is read, whatever follows it. -/
theorem exists_deserialize_serialize (header : BlockHeader)
    (hsize : header.getSerializedSize ≤ maxNdnPacketSize) (trailing : List UInt8) :
    ∃ read size, deserialize (header.serialize ++ trailing) = .ok (read, size) ∧
      read.block = header.block := by
  obtain ⟨octets, ⟨type, value⟩, parsed⟩ := header
  obtain ⟨afterType, hreads⟩ := blockOfBuffer_ok_iff.mp parsed
  obtain ⟨typeCode, lengthCode, hoctets, htypeLe, hlengthLe, -⟩ := hreads.exists_codes
  have htype := (readVarNumber_of_readType hreads.readType).2
  have hvalue := lt_of_readVarNumber hreads.readLength
  refine ⟨⟨element type value, ⟨type, value⟩, blockOfBuffer_element htype hvalue⟩, _,
    deserialize_ok_iff.mpr ⟨type, value.length, afterType ++ trailing, value ++ trailing,
      hreads.append trailing, ?_, ?_, ?_, rfl, rfl⟩, rfl⟩
  · have hlength := congrArg length hoctets
    rw [length_append, length_append] at hlength
    rw [getSerializedSize] at hsize
    dsimp only at hsize hlength htypeLe hlengthLe
    omega
  · rw [length_append]
    exact Nat.le_add_right _ _
  · rw [take_left]

/-- The octets that make up the element are counted right exactly if they are those of a block
in shortest form. -/
theorem tlvSize_eq_iff {start : List UInt8} {header : BlockHeader} {size : ℕ}
    (h : deserialize start = .ok (header, size)) :
    tlvSize start = .ok size ↔ ∃ block : Block, block.type < 2 ^ 32 ∧
      block.size ≤ maxNdnPacketSize ∧ block.wire <+: start := by
  obtain ⟨type, length, afterType, rest, hreads, hsize, hlong, hblock, -, rfl⟩ :=
    deserialize_ok_iff.mp h
  have hvalue : (rest.take length).length = length := length_take_of_le hlong
  have htype := (readVarNumber_of_readType hreads.readType).2
  rw [hblock, tlvSize_of_reads hreads, Block.size_mk, hvalue, Except.ok.injEq]
  constructor
  · intro hsame
    obtain ⟨typeCode, lengthCode, rfl, htypeLe, hlengthLe, htypeEq, hlengthEq⟩ :=
      hreads.exists_codes
    rw [length_append, length_append, ← sizeOfVarNumber_eq, ← sizeOfVarNumber_eq] at hsame
    refine ⟨⟨type, rest.take length⟩, htype, ?_, rest.drop length, ?_⟩
    · rw [Block.size_mk, hvalue, ← sizeOfVarNumber_eq, ← sizeOfVarNumber_eq]
      exact hsize
    · rw [htypeEq (by omega), hlengthEq (by omega), Block.wire, element, hvalue]
      simp
  · rintro ⟨⟨blockType, value⟩, hblockType, hblockSize, more, rfl⟩
    rw [Block.size_mk] at hblockSize
    have hshort : value.length < 2 ^ 64 := by
      have : maxNdnPacketSize < 2 ^ 64 := by decide
      omega
    obtain ⟨hreadType, hreadLength⟩ := hreads
    rw [Block.wire, element, append_assoc, append_assoc, readType_varNumber hblockType] at hreadType
    cases hreadType
    rw [readVarNumber_varNumber hshort] at hreadLength
    cases hreadLength
    rw [Block.wire, element]
    simp only [length_append]
    omega

/-- A block is read back from what was written, and the size that is returned is the number of
octets of the header exactly if the octets begin with those of a block in shortest form. -/
theorem deserialize_exact_iff (header : BlockHeader)
    (hsize : header.getSerializedSize ≤ maxNdnPacketSize) (trailing : List UInt8)
    {start : List UInt8} {read : BlockHeader} {size : ℕ}
    (hread : deserialize start = .ok (read, size)) :
    (∃ read' size', deserialize (header.serialize ++ trailing) = .ok (read', size') ∧
        read'.block = header.block) ∧
      (tlvSize start = .ok size ↔ ∃ block : Block, block.type < 2 ^ 32 ∧
        block.size ≤ maxNdnPacketSize ∧ block.wire <+: start) :=
  ⟨exists_deserialize_serialize header hsize trailing, tlvSize_eq_iff hread⟩

/-- An element with one octet. -/
def short : BlockHeader := ⟨[6, 1, 7], ⟨6, [7]⟩, rfl⟩

/-- The same element, with its length in three octets. -/
def long : BlockHeader := ⟨[6, 253, 0, 1, 7], ⟨6, [7]⟩, rfl⟩

theorem deserialize_exact_iff_long :
    (∃ read size, deserialize (long.serialize ++ [9]) = .ok (read, size) ∧
        read.block = long.block) ∧
      tlvSize [6, 1, 7, 9] = .ok 3 := by
  have hread : deserialize [6, 1, 7, 9] = .ok (short, 3) := deserialize_ok_iff.mpr
    ⟨6, 1, [1, 7, 9], [7, 9], ⟨rfl, rfl⟩, by decide, by decide, rfl, rfl, rfl⟩
  obtain ⟨hback, hexact⟩ := deserialize_exact_iff long (by decide) [9] hread
  exact ⟨hback, hexact.mpr ⟨short.block, by decide, by decide, [9], rfl⟩⟩

/-- The element has five octets, and three of them are removed from the packet. -/
theorem deserialize_long :
    deserialize (long.serialize ++ [9]) = .ok (short, 3) ∧
      tlvSize (long.serialize ++ [9]) = .ok 5 :=
  ⟨deserialize_ok_iff.mpr
    ⟨6, 1, [253, 0, 1, 7, 9], [7, 9], ⟨rfl, rfl⟩, by decide, by decide, rfl, rfl, rfl⟩, rfl⟩

end BlockHeader

end Link

end ValProofs
