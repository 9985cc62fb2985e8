import ValProofs.Lib.System
import ValProofs.Link.Header

/-!
A `ValHeader` object with the block it keeps.

`wireEncode()` fills `m_wire` once and returns it from then on, and `wireDecode`
puts the block it reads there. Nothing ever drops it: the setters change a member
and leave the block as it is. So what is sent is the encoding of the members as
long as no member is changed while there is a block, and only blocks that an
encoder has written are decoded.
-/

namespace ValProofs.Link

open Lib

namespace ValHeader

/-- The loop of `wireDecode`, with the members it has written when it throws. -/
def decodeElements (header : ValHeader) : List Block → ValHeader × Option Tlv.Error
  | [] => (header, none)
  | element :: elements =>
      match header.decodeElement element with
      | .ok header => decodeElements header elements
      | .error error => (header, some error)

def setSA (header : ValHeader) (sa : List UInt8) : ValHeader := { header with sa := sa }

def setDA (header : ValHeader) (da : List UInt8) : ValHeader := { header with da := da }

def setPhPos (header : ValHeader) (phPos : List UInt8) : ValHeader := { header with phPos := phPos }

def setRN (header : ValHeader) (rn : List UInt8) : ValHeader := { header with rn := rn }

/-- A hop count above `MAXHOPS` is ignored. -/
def setHopC (header : ValHeader) (hopC : UInt8) : ValHeader :=
  if hopC ≤ maxHops then { header with hopC := hopC } else header

/-- The members are strings that a `size_t` can count. -/
def Small (header : ValHeader) : Prop := ∀ f, (header.member f).length < 2 ^ 64

end ValHeader

/-- The members, and `m_wire` if `hasWire()`. -/
structure HeaderObject where
  header : ValHeader
  wire : Option Block
  deriving DecidableEq, Repr

open HeaderObject

namespace HeaderObject

/-- The constructors leave `m_wire` empty. The one from a block calls `wireDecode`
then, on empty strings and a hop count that nobody has set. -/
def construct (header : ValHeader) : HeaderObject := ⟨header, none⟩

/-- `wireEncode()`: the object afterwards and the block. -/
def wireEncode (object : HeaderObject) : HeaderObject × Block :=
  match object.wire with
  | some wire => (object, wire)
  | none => ({ object with wire := some object.header.wireEncode }, object.header.wireEncode)

/-- `wireDecode(wire)`: the object afterwards, and what is thrown. Without
`hasWire` the block has a value but not the octets of the whole element. -/
def wireDecode (object : HeaderObject) (wire : Block) (hasWire : Bool) :
    HeaderObject × Option Tlv.Error :=
  if wire.type ≠ tlvValHeader then (object, some ⟨"expecting ValHeader block"⟩)
  else
    let object := { object with wire := if hasWire then some wire else none }
    match wire.parse with
    | .error error => (object, some error)
    | .ok elements =>
        let (header, error) := object.header.decodeElements elements
        ({ object with header := header }, error)

inductive Call
  | wireEncode
  | wireDecode (wire : Block) (hasWire : Bool)
  | setSA (sa : List UInt8)
  | setDA (da : List UInt8)
  | setPhPos (phPos : List UInt8)
  | setRN (rn : List UInt8)
  | setHopC (hopC : UInt8)

def next (object : HeaderObject) : Call → HeaderObject
  | .wireEncode => object.wireEncode.1
  | .wireDecode wire hasWire => (object.wireDecode wire hasWire).1
  | .setSA sa => { object with header := object.header.setSA sa }
  | .setDA da => { object with header := object.header.setDA da }
  | .setPhPos phPos => { object with header := object.header.setPhPos phPos }
  | .setRN rn => { object with header := object.header.setRN rn }
  | .setHopC hopC => { object with header := object.header.setHopC hopC }

/-- The strings that a caller can pass. -/
def guard : Call → Prop
  | .setSA octets | .setDA octets | .setPhPos octets | .setRN octets => octets.length < 2 ^ 64
  | _ => True

def machine : System HeaderObject Call where
  init object := ∃ header : ValHeader, header.Small ∧ object = construct header
  guard _ := guard
  next := next

/-! ### Decoding on an object -/

variable {header header' : ValHeader}

theorem decodeElements_of_foldlM {elements : List Block}
    (h : elements.foldlM ValHeader.decodeElement header = .ok header') :
    header.decodeElements elements = (header', none) := by
  induction elements generalizing header with
  | nil =>
    cases h
    rfl
  | cons element elements ih =>
    rw [List.foldlM_cons] at h
    rw [ValHeader.decodeElements]
    cases hfirst : header.decodeElement element with
    | error e =>
      rw [hfirst] at h
      cases h
    | ok header₁ =>
      rw [hfirst] at h
      exact ih h

variable {object : HeaderObject}

/-- A block that the decoder takes is kept together with what it says. -/
theorem wireDecode_of_ok {wire : Block} (h : object.header.wireDecode wire = .ok header)
    (hasWire : Bool) :
    object.wireDecode wire hasWire = (⟨header, if hasWire then some wire else none⟩, none) := by
  rw [ValHeader.wireDecode] at h
  split at h
  · cases h
  · rename_i htype
    cases hparse : wire.parse with
    | error e =>
      rw [hparse] at h
      cases h
    | ok elements =>
      rw [hparse] at h
      have hfold : elements.foldlM ValHeader.decodeElement object.header = .ok header := h
      simp only [wireDecode, if_neg htype, hparse, decodeElements_of_foldlM hfold]

theorem small_decodeElement {element : Block} (h : header.decodeElement element = .ok header')
    (hsmall : header.Small) (helement : element.value.length < 2 ^ 64) : header'.Small := by
  obtain ⟨header'', hok, hmember⟩ :=
    ValHeader.decodeElement_of_readable (ValHeader.readable_of_decodeElement h) header
  cases h.symm.trans hok
  intro f
  rw [hmember]
  split
  · cases f with
    | hopC => exact Nat.one_lt_two_pow (by decide)
    | sa | da | phPos | rn => exact helement
  · exact hsmall f

theorem small_decodeElements {elements : List Block} (hsmall : header.Small)
    (helements : ∀ e ∈ elements, e.value.length < 2 ^ 64) :
    (header.decodeElements elements).1.Small := by
  induction elements generalizing header with
  | nil => exact hsmall
  | cons element elements ih =>
    obtain ⟨hfirst, hrest⟩ := List.forall_mem_cons.mp helements
    rw [ValHeader.decodeElements]
    cases hok : header.decodeElement element with
    | error e => exact hsmall
    | ok header₁ => exact ih (small_decodeElement hok hsmall hfirst) hrest

/-- What `wireDecode` leaves in `m_wire`. -/
theorem wireDecode_cases (object : HeaderObject) (wire : Block) (hasWire : Bool) :
    (wire.type ≠ tlvValHeader ∧ (object.wireDecode wire hasWire).1 = object) ∨
      wire.type = tlvValHeader ∧
        (object.wireDecode wire hasWire).1.wire = if hasWire then some wire else none := by
  by_cases htype : wire.type = tlvValHeader
  · refine .inr ⟨htype, ?_⟩
    rw [wireDecode, if_neg (not_not.mpr htype)]
    cases wire.parse <;> rfl
  · refine .inl ⟨htype, ?_⟩
    rw [wireDecode, if_pos htype]

theorem small_wireDecode (hsmall : object.header.Small) (wire : Block) (hasWire : Bool) :
    (object.wireDecode wire hasWire).1.header.Small := by
  rw [wireDecode]
  split
  · exact hsmall
  · cases hparse : wire.parse with
    | error e => exact hsmall
    | ok elements =>
      exact small_decodeElements hsmall fun e he => Block.length_value_of_parse hparse e he

/-! ### The block and the members -/

/-- What `wireEncode()` returns is the encoding of the members, and is decoded into
them again, by whatever object. -/
def Fresh (object : HeaderObject) : Prop :=
  object.wireEncode.2 = object.header.wireEncode ∧
    ∀ other : ValHeader, other.wireDecode object.wireEncode.2 = .ok object.header

/-- The block that is kept is the encoding of the members. -/
structure Consistent (object : HeaderObject) : Prop where
  small : object.header.Small
  wire : ∀ wire, object.wire = some wire → wire = object.header.wireEncode

theorem Consistent.fresh (h : object.Consistent) : object.Fresh := by
  have hblock : object.wireEncode.2 = object.header.wireEncode := by
    rw [wireEncode]
    cases hwire : object.wire with
    | none => rfl
    | some wire => exact h.wire wire hwire
  refine ⟨hblock, fun other => ?_⟩
  rw [hblock]
  exact ValHeader.wireDecode_wireEncode h.small other

theorem Fresh.wire (h : object.Fresh) {wire : Block} (hwire : object.wire = some wire) :
    wire = object.header.wireEncode := by
  have hblock := h.1
  rw [wireEncode, hwire] at hblock
  exact hblock

theorem wireEncode_injective (h : header.Small) (h' : header'.Small)
    (heq : header.wireEncode = header'.wireEncode) : header = header' := by
  have hok := ValHeader.wireDecode_wireEncode h header
  rw [heq, ValHeader.wireDecode_wireEncode h' header] at hok
  exact (Except.ok.inj hok).symm

/-- The call keeps block and members together: a block that is decoded with its
octets is the encoding of some header, and a member is set to another value only
if there is no block. -/
def Keeps (object : HeaderObject) : Call → Prop
  | .wireEncode => True
  | .wireDecode wire hasWire => wire.type = tlvValHeader → hasWire = true →
      ∃ header : ValHeader, header.Small ∧ wire = header.wireEncode
  | .setSA sa => object.wire = none ∨ sa = object.header.sa
  | .setDA da => object.wire = none ∨ da = object.header.da
  | .setPhPos phPos => object.wire = none ∨ phPos = object.header.phPos
  | .setRN rn => object.wire = none ∨ rn = object.header.rn
  | .setHopC hopC => object.wire = none ∨ maxHops < hopC ∨ hopC = object.header.hopC

theorem small_set (h : header.Small) {f : SubElement}
    (hothers : ∀ g ≠ f, header'.member g = header.member g)
    (hlength : (header'.member f).length < 2 ^ 64) : header'.Small := by
  intro g
  by_cases hg : g = f
  · exact hg ▸ hlength
  · exact hothers g hg ▸ h g

theorem setHopC_eq_iff {hopC : UInt8} :
    header.setHopC hopC = header ↔ maxHops < hopC ∨ hopC = header.hopC := by
  unfold ValHeader.setHopC
  split
  · rename_i hle
    rw [or_iff_right (UInt8.not_lt.mpr hle)]
    constructor
    · intro h
      exact congrArg ValHeader.hopC h
    · rintro rfl
      rfl
  · rename_i hle
    exact iff_of_true rfl (.inl (UInt8.not_le.mp hle))

section Setters

variable {object : HeaderObject} {header : ValHeader}

/-- A setter keeps the object consistent if there is no block or nothing
changes. -/
theorem Consistent.set (h : object.Consistent) (hsmall : header.Small)
    (hkeeps : object.wire = none ∨ header = object.header) :
    ({ object with header := header } : HeaderObject).Consistent := by
  refine ⟨hsmall, fun wire hwire => ?_⟩
  obtain hnone | rfl := hkeeps
  · cases hnone.symm.trans hwire
  · exact h.wire wire hwire

/-- And only then. -/
theorem Consistent.eq_of_fresh (h : object.Consistent) (hsmall : header.Small)
    (hfresh : ({ object with header := header } : HeaderObject).Fresh) :
    object.wire = none ∨ header = object.header := by
  cases hwire : object.wire with
  | none => exact .inl rfl
  | some wire =>
    have hnew : wire = header.wireEncode := hfresh.wire hwire
    exact .inr (wireEncode_injective hsmall h.small (hnew.symm.trans (h.wire wire hwire)))

end Setters

variable {call : Call}

theorem small_next (hsmall : object.header.Small) (hguard : guard call) :
    (object.next call).header.Small := by
  cases call with
  | wireEncode =>
    rw [next, wireEncode]
    split
    · exact hsmall
    · exact hsmall
  | wireDecode wire hasWire => exact small_wireDecode hsmall wire hasWire
  | setSA sa => exact small_set hsmall (f := .sa) (by intro g hg; cases g <;> trivial) hguard
  | setDA da => exact small_set hsmall (f := .da) (by intro g hg; cases g <;> trivial) hguard
  | setPhPos phPos =>
    exact small_set hsmall (f := .phPos) (by intro g hg; cases g <;> trivial) hguard
  | setRN rn => exact small_set hsmall (f := .rn) (by intro g hg; cases g <;> trivial) hguard
  | setHopC hopC =>
    rw [next, ValHeader.setHopC]
    split
    · exact small_set hsmall (f := .hopC) (by intro g hg; cases g <;> trivial)
        (Nat.one_lt_two_pow (by decide))
    · exact hsmall

theorem Consistent.next (h : object.Consistent) (hguard : guard call) (hkeeps : object.Keeps call) :
    (object.next call).Consistent := by
  have hsmall := small_next h.small hguard
  cases call with
  | wireEncode =>
    refine ⟨hsmall, fun wire hwire => ?_⟩
    rw [next, wireEncode] at hwire ⊢
    cases hold : object.wire with
    | none =>
      rw [hold] at hwire
      exact (Option.some.inj hwire).symm
    | some wire' =>
      rw [hold] at hwire
      exact h.wire wire hwire
  | wireDecode wire hasWire =>
    obtain ⟨-, hsame⟩ | ⟨htype, hwire⟩ := object.wireDecode_cases wire hasWire
    · rw [next, hsame]
      exact h
    · cases hasWire with
      | false =>
        refine ⟨hsmall, fun wire' hwire' => ?_⟩
        cases hwire.symm.trans hwire'
      | true =>
        -- the block determines the header it is the encoding of
        obtain ⟨header, hheader, rfl⟩ := hkeeps htype rfl
        have hok := wireDecode_of_ok
          (ValHeader.wireDecode_wireEncode hheader object.header) true
        rw [next, hok]
        refine ⟨hheader, fun wire' hwire' => ?_⟩
        exact (Option.some.inj hwire').symm
  | setSA sa | setDA da
  | setPhPos phPos | setRN rn => exact h.set hsmall (hkeeps.imp_right fun heq => by rw [heq]; rfl)
  | setHopC hopC => exact h.set hsmall (hkeeps.imp_right setHopC_eq_iff.mpr)

theorem Consistent.keeps (h : object.Consistent) (hguard : guard call)
    (hfresh : (object.next call).Fresh) : object.Keeps call := by
  have hsmall := small_next h.small hguard
  cases call with
  | wireEncode => trivial
  | wireDecode wire hasWire =>
    intro htype hhas
    subst hhas
    obtain ⟨hne, -⟩ | ⟨-, hwire⟩ := object.wireDecode_cases wire true
    · exact absurd htype hne
    · exact ⟨_, hsmall, hfresh.wire hwire⟩
  | setSA sa => exact (h.eq_of_fresh hsmall hfresh).imp_right (congrArg ValHeader.sa)
  | setDA da => exact (h.eq_of_fresh hsmall hfresh).imp_right (congrArg ValHeader.da)
  | setPhPos phPos => exact (h.eq_of_fresh hsmall hfresh).imp_right (congrArg ValHeader.phPos)
  | setRN rn => exact (h.eq_of_fresh hsmall hfresh).imp_right (congrArg ValHeader.rn)
  | setHopC hopC => exact (h.eq_of_fresh hsmall hfresh).imp_right setHopC_eq_iff.mp

/-- **The kept block.** Along a sequence of calls on an object `wireEncode()` always
returns the encoding of the members exactly if no call sets a member to another
value while there is a block, and only encodings of headers are decoded. -/
theorem fresh_iff_keeps {header : ValHeader} (hsmall : header.Small) {calls : List Call}
    (hcalls : machine.Enabled (construct header) calls) :
    (∀ before after, calls = before ++ after → Fresh (before.foldl next (construct header))) ↔
      ∀ before call after, calls = before ++ call :: after →
        Keeps (before.foldl next (construct header)) call :=
  hcalls.forall_iff (I := Consistent) ⟨hsmall, nofun⟩ (fun _ h => h.fresh)
    (fun _ _ h hguard hkeeps => h.next hguard hkeeps) fun _ _ h hguard hfresh =>
      h.keeps hguard hfresh

/-- The header of the default constructor, with `TEST` in its strings. -/
def testHeader : ValHeader := ⟨[84, 69, 83, 84], [84, 69, 83, 84], [84, 69, 83, 84],
  [84, 69, 83, 84], 0⟩

theorem small_testHeader : testHeader.Small := by
  intro f
  cases f <;> decide

/-- A header is sent, and sent again with another hop count. -/
def sentTwice : List Call := [.setHopC 5, .wireEncode, .setHopC 4, .wireEncode]

theorem enabled_sentTwice : machine.Enabled (construct testHeader) sentTwice :=
  .cons trivial (.cons trivial (.cons trivial (.cons trivial (.nil _))))

/-- The hop count is set while there is a block. -/
theorem fresh_iff_keeps_sentTwice :
    ¬ ∀ before after, sentTwice = before ++ after →
      Fresh (before.foldl next (construct testHeader)) := by
  intro hfresh
  have hkeeps := (fresh_iff_keeps small_testHeader enabled_sentTwice).mp hfresh
    [.setHopC 5, .wireEncode] (.setHopC 4) [.wireEncode] rfl
  rw [Keeps] at hkeeps
  exact absurd hkeeps (by decide +kernel)

/-- The block with the hop count 5 goes out again. A header that is decoded from a
block without sub-elements is encoded as that block. -/
theorem stale_block_returned :
    ¬ Fresh (sentTwice.foldl next (construct testHeader)) ∧
      ¬ Fresh ((construct testHeader).next (.wireDecode ⟨tlvValHeader, []⟩ true)) := by
  constructor
  · intro h
    exact absurd h.1 (by decide +kernel)
  · intro h
    exact absurd h.1 (by decide +kernel)

end HeaderObject

end ValProofs.Link
