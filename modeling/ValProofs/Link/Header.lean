import ValProofs.Lib.Tlv
import ValProofs.Packet

/-!
The wire form of the VAL header: a TLV element of type 850 with one
sub-element for each of the five members.

Here a `std::string` is the list of its octets. The decoder is a loop over the
sub-elements that writes into the members the object already has, so what it
leaves in a member is the value of the last sub-element of that type, or else
what was there before; for an object that is just being constructed that is an
empty string, and an octet nobody has set for `hopC`. The encoder writes every
member once, and its result is read back into any object. A block is decoded
strictly, into a header that the block determines, if each sub-element is there
exactly once and the hop count fits its octet; the loop checks neither.
-/

namespace ValProofs

open Lib List

namespace Block

/-- The octets of the block. -/
def wire (block : Block) : List UInt8 := Tlv.element block.type block.value

def size (block : Block) : ℕ := block.wire.length

theorem size_mk (type : ℕ) (value : List UInt8) :
    size ⟨type, value⟩ =
      (Tlv.varNumber type).length + (Tlv.varNumber value.length).length + value.length :=
  Tlv.length_element type value

/-- `parse()`: the sub-elements. -/
def parse (block : Block) : Except Tlv.Error (List Block) :=
  Tlv.readElements Block.mk
    (fun type => ⟨"TLV-LENGTH of sub-element of type " ++ toString type ++
      " exceeds TLV-VALUE boundary of parent block"⟩)
    block.value

/-- The type and the length of the block's value are numbers the encoding has
room for. -/
def Fits (block : Block) : Prop := block.type < 2 ^ 32 ∧ block.value.length < 2 ^ 64

theorem parse_flatMap_wire {type : ℕ} {elements : List Block} (h : ∀ e ∈ elements, e.Fits) :
    parse ⟨type, elements.flatMap wire⟩ = .ok elements := by
  have hread : parse ⟨type, elements.flatMap wire⟩ =
      .ok (elements.map fun e => ⟨e.type, e.value⟩) :=
    Tlv.readElements_flatMap Block.type Block.value h
  simpa using hread

theorem length_value_of_parse {block : Block} {elements : List Block}
    (h : block.parse = .ok elements) : ∀ e ∈ elements, e.value.length < 2 ^ 64 := by
  intro e he
  obtain ⟨type, value, rfl, hvalue⟩ := Tlv.value_of_readElements h e he
  exact hvalue

end Block

namespace Link

/-- `ValHeader`, with its strings as octets. -/
structure ValHeader where
  sa : List UInt8
  da : List UInt8
  phPos : List UInt8
  rn : List UInt8
  hopC : UInt8
  deriving DecidableEq, Repr

def tlvValHeader : ℕ := 850

/-- The sub-elements of a `ValHeader`. -/
inductive SubElement
  | sa
  | da
  | phPos
  | rn
  | hopC
  deriving DecidableEq, Repr

namespace SubElement

def tlvType : SubElement → ℕ
  | .sa => 851
  | .da => 853
  | .phPos => 855
  | .rn => 857
  | .hopC => 859

def ofType? : ℕ → Option SubElement
  | 851 => some .sa
  | 853 => some .da
  | 855 => some .phPos
  | 857 => some .rn
  | 859 => some .hopC
  | _ => none

@[simp] theorem ofType?_tlvType (f : SubElement) : ofType? f.tlvType = some f := by
  cases f <;> rfl

theorem tlvType_of_ofType? {type : ℕ} {f : SubElement} (h : ofType? type = some f) :
    type = f.tlvType := by
  unfold ofType? at h
  split at h <;> cases h <;> rfl

theorem tlvType_injective {f g : SubElement} (h : f.tlvType = g.tlvType) : f = g := by
  have hsome : some f = some g := by rw [← ofType?_tlvType f, h, ofType?_tlvType]
  exact Option.some.inj hsome

theorem tlvType_lt (f : SubElement) : f.tlvType < 2 ^ 32 := by
  cases f <;> decide

end SubElement

namespace ValHeader

/-- The sub-elements in the order in which the encoder leaves them: it
prepends `SA` first. -/
def elements (header : ValHeader) : List Block :=
  [⟨SubElement.hopC.tlvType, nonNegativeInteger header.hopC.toNat⟩,
    ⟨SubElement.rn.tlvType, header.rn⟩,
    ⟨SubElement.phPos.tlvType, header.phPos⟩,
    ⟨SubElement.da.tlvType, header.da⟩,
    ⟨SubElement.sa.tlvType, header.sa⟩]

def wireEncode (header : ValHeader) : Block :=
  ⟨tlvValHeader, header.elements.flatMap Block.wire⟩

/-- The body of the decoder's loop. The integer of `HopC` has up to 64 bits;
the member keeps its low octet. -/
def decodeElement (header : ValHeader) (element : Block) : Except Tlv.Error ValHeader :=
  match SubElement.ofType? element.type with
  | some .sa => .ok { header with sa := element.value }
  | some .da => .ok { header with da := element.value }
  | some .phPos => .ok { header with phPos := element.value }
  | some .rn => .ok { header with rn := element.value }
  | some .hopC => do
      let n ← Tlv.readNonNegativeInteger element.value
      return { header with hopC := UInt8.ofNat n }
  | none => .error ⟨"expecting ValHeader subblocks"⟩

/-- `wireDecode(wire)` on an object that holds `header`. -/
def wireDecode (header : ValHeader) (wire : Block) : Except Tlv.Error ValHeader :=
  if wire.type ≠ tlvValHeader then .error ⟨"expecting ValHeader block"⟩
  else do
    let elements ← wire.parse
    elements.foldlM decodeElement header

/-! ### What the loop leaves in the members -/

/-- A member as the octets that the sub-element of that type stands for. -/
def member (header : ValHeader) : SubElement → List UInt8
  | .sa => header.sa
  | .da => header.da
  | .phPos => header.phPos
  | .rn => header.rn
  | .hopC => [header.hopC]

/-- What a sub-element with this value puts into the member. -/
def stored (f : SubElement) (value : List UInt8) : List UInt8 :=
  match f with
  | .hopC => [UInt8.ofNat (ofBigEndian value)]
  | _ => value

variable {header header' : ValHeader}

theorem ext_member (h : ∀ f, header.member f = header'.member f) : header = header' := by
  have hhopC : [header.hopC] = [header'.hopC] := h .hopC
  obtain ⟨sa, da, phPos, rn, hopC⟩ := header
  obtain ⟨sa', da', phPos', rn', hopC'⟩ := header'
  obtain rfl : sa = sa' := h .sa
  obtain rfl : da = da' := h .da
  obtain rfl : phPos = phPos' := h .phPos
  obtain rfl : rn = rn' := h .rn
  obtain rfl : hopC = hopC' := singleton_injective hhopC
  rfl

/-- A sub-element that the loop does not throw on: its type is one of the
five, and a hop count has one of the lengths of an integer. -/
def Readable (element : Block) : Prop :=
  ∃ f : SubElement, element.type = f.tlvType ∧
    (f = .hopC → ∃ n, Tlv.readNonNegativeInteger element.value = .ok n)

theorem readNonNegativeInteger_ok {value : List UInt8} {n : ℕ}
    (h : Tlv.readNonNegativeInteger value = .ok n) : n = ofBigEndian value := by
  unfold Tlv.readNonNegativeInteger at h
  split at h <;> cases h
  rfl

theorem decodeElement_of_readable {element : Block} (h : Readable element) (header : ValHeader) :
    ∃ header', decodeElement header element = .ok header' ∧
      ∀ g, header'.member g =
        if element.type = g.tlvType then stored g element.value else header.member g := by
  obtain ⟨f, htype, hread⟩ := h
  have hmember : ∀ header' : ValHeader, header'.member f = stored f element.value →
      (∀ g ≠ f, header'.member g = header.member g) →
      ∀ g, header'.member g =
        if element.type = g.tlvType then stored g element.value else header.member g := by
    intro header' hf hothers g
    by_cases hg : g = f
    · rw [hg, if_pos htype, hf]
    · rw [if_neg fun h => hg (SubElement.tlvType_injective (h.symm.trans htype)), hothers g hg]
  have hof : SubElement.ofType? element.type = some f := by
    rw [htype, SubElement.ofType?_tlvType]
  rw [decodeElement, hof]
  cases f with
  | sa | da | phPos | rn =>
    refine ⟨_, rfl, hmember _ rfl fun g hg => ?_⟩
    cases g <;> first | rfl | exact absurd rfl hg
  | hopC =>
    obtain ⟨n, hn⟩ := hread rfl
    rw [readNonNegativeInteger_ok hn] at hn
    simp only [hn, bind, Except.bind]
    refine ⟨_, rfl, hmember _ rfl fun g hg => ?_⟩
    cases g <;> first | rfl | exact absurd rfl hg

theorem readable_of_decodeElement {element : Block}
    (h : decodeElement header element = .ok header') : Readable element := by
  unfold decodeElement at h
  cases hf : SubElement.ofType? element.type with
  | none =>
    rw [hf] at h
    cases h
  | some f =>
    refine ⟨f, SubElement.tlvType_of_ofType? hf, fun hhopC => ?_⟩
    subst hhopC
    simp only [hf] at h
    cases hread : Tlv.readNonNegativeInteger element.value with
    | error e =>
      rw [hread] at h
      cases h
    | ok n => exact ⟨n, rfl⟩

/-- What the last sub-element of the type puts into the member, if there is
one. -/
def lastStored (f : SubElement) (elements : List Block) : Option (List UInt8) :=
  ((elements.filter fun e => e.type = f.tlvType).getLast?).map fun e => stored f e.value

theorem getD_lastStored_cons (f : SubElement) (element : Block) (elements : List Block)
    (before : List UInt8) :
    (lastStored f (element :: elements)).getD before =
      (lastStored f elements).getD
        (if element.type = f.tlvType then stored f element.value else before) := by
  unfold lastStored
  by_cases htype : element.type = f.tlvType
  · rw [filter_cons_of_pos (by simpa using htype), if_pos htype, getLast?_cons]
    cases (elements.filter fun e => e.type = f.tlvType).getLast? <;> rfl
  · rw [filter_cons_of_neg (by simpa using htype), if_neg htype]

variable {elements : List Block}

theorem foldlM_decodeElement_of_readable (h : ∀ e ∈ elements, Readable e) (header : ValHeader) :
    ∃ header', elements.foldlM decodeElement header = .ok header' ∧
      ∀ f, header'.member f = (lastStored f elements).getD (header.member f) := by
  induction elements generalizing header with
  | nil => exact ⟨header, rfl, fun f => rfl⟩
  | cons element elements ih =>
    obtain ⟨hread, hreads⟩ := forall_mem_cons.mp h
    obtain ⟨header₁, hfirst, hmember⟩ := decodeElement_of_readable hread header
    obtain ⟨header₂, hrest, hmember₂⟩ := ih hreads header₁
    refine ⟨header₂, ?_, fun f => ?_⟩
    · rw [foldlM_cons, hfirst]
      exact hrest
    · rw [hmember₂, hmember, getD_lastStored_cons]

theorem readable_of_foldlM (h : elements.foldlM decodeElement header = .ok header') :
    ∀ e ∈ elements, Readable e := by
  induction elements generalizing header with
  | nil => exact forall_mem_nil _
  | cons element elements ih =>
    rw [foldlM_cons] at h
    cases hfirst : decodeElement header element with
    | error e =>
      rw [hfirst] at h
      cases h
    | ok header₁ =>
      rw [hfirst] at h
      exact forall_mem_cons.mpr ⟨readable_of_decodeElement hfirst, ih h⟩

/-- **What the decoder accepts, and what it makes of it.** -/
theorem wireDecode_eq_ok_iff {block : Block} :
    header.wireDecode block = .ok header' ↔
      block.type = tlvValHeader ∧ ∃ elements, block.parse = .ok elements ∧
        (∀ e ∈ elements, Readable e) ∧
        ∀ f, header'.member f = (lastStored f elements).getD (header.member f) := by
  constructor
  · intro h
    rw [wireDecode] at h
    split at h
    · cases h
    · rename_i htype
      cases hparse : block.parse with
      | error e =>
        rw [hparse] at h
        cases h
      | ok elements =>
        rw [hparse] at h
        have hfold : elements.foldlM decodeElement header = .ok header' := h
        have hread := readable_of_foldlM hfold
        obtain ⟨header'', hok, hmember⟩ := foldlM_decodeElement_of_readable hread header
        rw [hfold] at hok
        cases hok
        exact ⟨not_not.mp htype, elements, rfl, hread, hmember⟩
  · rintro ⟨htype, elements, hparse, hread, hmember⟩
    obtain ⟨header'', hok, hmember''⟩ := foldlM_decodeElement_of_readable hread header
    rw [wireDecode, if_neg (not_not.mpr htype), hparse]
    have hsame : header'' = header' := ext_member fun f => (hmember'' f).trans (hmember f).symm
    rw [← hsame]
    exact hok

/-! ### What was encoded is decoded -/

theorem fits_elements (h : ∀ f, (header.member f).length < 2 ^ 64) :
    ∀ e ∈ header.elements, e.Fits := by
  have hhopC : (nonNegativeInteger header.hopC.toNat).length < 2 ^ 64 := by
    have := length_nonNegativeInteger header.hopC.toNat
    omega
  simp only [elements, forall_mem_cons]
  exact ⟨⟨SubElement.tlvType_lt .hopC, hhopC⟩, ⟨SubElement.tlvType_lt .rn, h .rn⟩,
    ⟨SubElement.tlvType_lt .phPos, h .phPos⟩, ⟨SubElement.tlvType_lt .da, h .da⟩,
    ⟨SubElement.tlvType_lt .sa, h .sa⟩, forall_mem_nil _⟩

theorem readNonNegativeInteger_hopC (hopC : UInt8) :
    Tlv.readNonNegativeInteger (nonNegativeInteger hopC.toNat) = .ok hopC.toNat :=
  Tlv.readNonNegativeInteger_nonNegativeInteger (hopC.toNat_lt.trans (by decide))

theorem readable_elements (header : ValHeader) : ∀ e ∈ header.elements, Readable e := by
  simp only [elements, forall_mem_cons]
  refine ⟨⟨.hopC, rfl, fun _ => ⟨_, readNonNegativeInteger_hopC _⟩⟩, ⟨.rn, rfl, nofun⟩,
    ⟨.phPos, rfl, nofun⟩, ⟨.da, rfl, nofun⟩, ⟨.sa, rfl, nofun⟩, forall_mem_nil _⟩

theorem lastStored_elements (header : ValHeader) (f : SubElement) :
    lastStored f header.elements = some (header.member f) := by
  have hhopC : ofBigEndian (nonNegativeInteger header.hopC.toNat) = header.hopC.toNat :=
    ofBigEndian_nonNegativeInteger (header.hopC.toNat_lt.trans (by decide))
  cases f <;> simp [lastStored, elements, SubElement.tlvType, stored, member, hhopC]

/-- **The header's round trip**, into any object. -/
theorem wireDecode_wireEncode (h : ∀ f, (header.member f).length < 2 ^ 64) (before : ValHeader) :
    before.wireDecode header.wireEncode = .ok header :=
  wireDecode_eq_ok_iff.mpr ⟨rfl, header.elements,
    Block.parse_flatMap_wire (fits_elements h), readable_elements header,
    fun f => by rw [lastStored_elements]; rfl⟩

/-! ### Strict decoding -/

/-- Whatever object the block is decoded into: if it is accepted, then with the
same result by every other object, each sub-element is there exactly once, the
hop count is the integer on the wire, and the header is decoded again from its
own encoding. -/
def StrictlyDecoded (block : Block) : Prop :=
  ∀ header header' : ValHeader, header.wireDecode block = .ok header' →
    (∀ other : ValHeader, other.wireDecode block = .ok header') ∧
    (∃ elements, block.parse = .ok elements ∧
      (∀ f : SubElement, elements.countP (fun e => e.type = f.tlvType) = 1) ∧
      ∀ e ∈ elements, e.type = SubElement.hopC.tlvType →
        Tlv.readNonNegativeInteger e.value = .ok header'.hopC.toNat) ∧
    ∀ other : ValHeader, other.wireDecode header'.wireEncode = .ok header'

/-- The octets of a block of the header's type are elements, and the loop
throws on none of them. -/
def Passes (block : Block) (elements : List Block) : Prop :=
  block.type = tlvValHeader ∧ block.parse = .ok elements ∧ ∀ e ∈ elements, Readable e

theorem filter_eq_singleton {f : SubElement}
    (h : elements.countP (fun e => e.type = f.tlvType) = 1) :
    ∃ e, elements.filter (fun e => e.type = f.tlvType) = [e] := by
  rw [countP_eq_length_filter] at h
  exact length_eq_one_iff.mp h

theorem member_of_count
    (hmember : ∀ f, header'.member f = (lastStored f elements).getD (header.member f))
    {f : SubElement} (h : elements.countP (fun e => e.type = f.tlvType) = 1) :
    ∃ e ∈ elements, e.type = f.tlvType ∧
      (∀ e' ∈ elements, e'.type = f.tlvType → e' = e) ∧ header'.member f = stored f e.value := by
  obtain ⟨e, hfilter⟩ := filter_eq_singleton h
  have hmem : ∀ e', e' ∈ elements ∧ e'.type = f.tlvType ↔ e' = e := by
    intro e'
    have hiff : e' ∈ elements.filter (fun e => e.type = f.tlvType) ↔
        e' ∈ elements ∧ e'.type = f.tlvType := by simp
    rw [← hiff, hfilter, mem_singleton]
  obtain ⟨he, htype⟩ := (hmem e).mpr rfl
  refine ⟨e, he, htype, fun e' he' htype' => (hmem e').mp ⟨he', htype'⟩, ?_⟩
  rw [hmember, lastStored, hfilter]
  rfl

/-- **Decoding is strict exactly for these blocks**: those the loop throws on,
and those that have each sub-element once and a hop count of one octet. -/
theorem strictlyDecoded_iff (block : Block) :
    StrictlyDecoded block ↔
      ∀ elements, Passes block elements →
        (∀ f : SubElement, elements.countP (fun e => e.type = f.tlvType) = 1) ∧
        ∀ e ∈ elements, e.type = SubElement.hopC.tlvType → ofBigEndian e.value < 2 ^ 8 := by
  constructor
  · rintro h elements ⟨htype, hparse, hread⟩
    obtain ⟨header', hok, hmember⟩ :=
      foldlM_decodeElement_of_readable hread ⟨[], [], [], [], 0⟩
    obtain ⟨-, ⟨elements', hparse', hcount, hhopC⟩, -⟩ := h _ _
      (wireDecode_eq_ok_iff.mpr ⟨htype, elements, hparse, hread, hmember⟩)
    rw [hparse] at hparse'
    cases hparse'
    refine ⟨hcount, fun e he hetype => ?_⟩
    rw [← readNonNegativeInteger_ok (hhopC e he hetype)]
    exact header'.hopC.toNat_lt
  · intro h header header' hdecode
    obtain ⟨htype, elements, hparse, hread, hmember⟩ := wireDecode_eq_ok_iff.mp hdecode
    obtain ⟨hcount, hoctet⟩ := h elements ⟨htype, hparse, hread⟩
    have hlength : ∀ f, (header'.member f).length < 2 ^ 64 := by
      intro f
      obtain ⟨e, he, -, -, hvalue⟩ := member_of_count hmember (hcount f)
      have hshort := Block.length_value_of_parse hparse e he
      rw [hvalue]
      cases f with
      | hopC => exact Nat.one_lt_two_pow (by decide)
      | sa | da | phPos | rn => exact hshort
    refine ⟨fun other => ?_, ⟨elements, hparse, hcount, fun e he hetype => ?_⟩,
      wireDecode_wireEncode hlength⟩
    · -- every member was written, so nothing is left of what was there before
      refine wireDecode_eq_ok_iff.mpr ⟨htype, elements, hparse, hread, fun f => ?_⟩
      obtain ⟨e, hfilter⟩ := filter_eq_singleton (hcount f)
      rw [hmember, lastStored, hfilter]
      rfl
    · obtain ⟨e', he', htype', honly, hvalue⟩ := member_of_count hmember (hcount .hopC)
      obtain rfl := honly e he hetype
      obtain ⟨f, hf, hhopC⟩ := hread e he
      obtain rfl : SubElement.hopC = f := SubElement.tlvType_injective (hetype.symm.trans hf)
      obtain ⟨n, hn⟩ := hhopC rfl
      have hstored : header'.hopC = UInt8.ofNat (ofBigEndian e.value) :=
        List.singleton_injective hvalue
      rw [hn, readNonNegativeInteger_ok hn, hstored, UInt8.toNat_ofNat',
        Nat.mod_eq_of_lt (hoctet e he hetype)]

/-- A header with no sub-element at all is accepted, and so are two source
areas, of which the second counts, and a hop count of 256, which becomes
zero. -/
theorem accepts_without_check :
    ¬ StrictlyDecoded ⟨tlvValHeader, []⟩ ∧
    ¬ StrictlyDecoded ⟨tlvValHeader,
      (⟨SubElement.sa.tlvType, [65]⟩ : Block).wire ++
        (ValHeader.elements ⟨[66], [66], [], [], 9⟩).flatMap Block.wire⟩ ∧
    ¬ StrictlyDecoded ⟨tlvValHeader,
      (⟨SubElement.hopC.tlvType, [1, 0]⟩ : Block).wire ++
        ((ValHeader.elements ⟨[65], [66], [], [], 0⟩).drop 1).flatMap Block.wire⟩ := by
  refine ⟨fun h => ?_, fun h => ?_, fun h => ?_⟩
  · obtain ⟨hsame, -, -⟩ := h ⟨[], [], [], [], 0⟩ ⟨[], [], [], [], 0⟩ rfl
    exact absurd (hsame ⟨[], [], [], [], 7⟩) (by decide)
  · obtain ⟨-, ⟨elements, hparse, hcount, -⟩, -⟩ :=
      h ⟨[], [], [], [], 0⟩ ⟨[66], [66], [], [], 9⟩ rfl
    cases hparse
    exact absurd (hcount .sa) (by decide)
  · obtain ⟨-, ⟨elements, hparse, -, hhopC⟩, -⟩ :=
      h ⟨[], [], [], [], 7⟩ ⟨[65], [66], [], [], 0⟩ rfl
    cases hparse
    exact absurd (hhopC ⟨859, [1, 0]⟩ (by decide) rfl) (by decide)

end ValHeader

end Link

end ValProofs
