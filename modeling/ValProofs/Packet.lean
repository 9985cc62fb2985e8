import Mathlib.Data.Int.Notation
import Mathlib.Data.List.Basic
import Mathlib.Tactic.Common

/-!
The packets that VAL and NFD exchange: names, Interests and Data as far as the
forwarding code reads them, and the VAL packet, which is one of the two under a
`ValHeader`.

A name component is kept as the text `toUri` prints for it, and a face
identifier is a natural number. The C++ equality of
signatures compares the fields below one by one, so it is equality of the
structures.
-/

namespace ValProofs

abbrev Nonce := UInt32

abbrev Name := List String

/-- `getPrefix(-1)`: the name without its last component. -/
def Name.getPrefix1 (name : Name) : Name := name.dropLast

def Name.toUri : Name → String
  | [] => "/"
  | name => name.foldl (fun uri component => uri ++ "/" ++ component) ""

/-- A TLV element with its value octets. -/
structure Block where
  type : ℕ
  value : List UInt8
  deriving DecidableEq, Repr

inductive KeyLocator
  | none
  | name (name : Name)
  | keyDigest (digest : Block)
  | unknown (wire : Block)
  deriving DecidableEq, Repr

/-- A `SignatureInfo`; the type `-1` is the invalid one. -/
structure SignatureInfo where
  type : ℤ
  keyLocator : Option KeyLocator
  otherTlvs : List Block
  deriving DecidableEq, Repr

structure Signature where
  info : SignatureInfo
  value : Block
  deriving DecidableEq, Repr

/-- The selectors of an Interest: the one the pipelines read, and the wire
form of the others. -/
structure Selectors where
  mustBeFresh : Bool
  others : List UInt8
  deriving DecidableEq, Repr

structure Interest where
  name : Name
  nonce : Nonce
  selectors : Selectors
  /-- Lifetime in milliseconds. -/
  interestLifetime : ℕ
  forwardingHint : List Name
  /-- The tag `NextHopFaceIdTag`, if one is set. -/
  nextHopFaceId : Option ℕ
  deriving DecidableEq, Repr

structure Data where
  name : Name
  signature : Signature
  /-- Freshness period in milliseconds. -/
  freshnessPeriod : ℕ
  content : List UInt8
  /-- The tag `CongestionMarkTag`, if one is set. -/
  congestionMark : Option ℕ
  deriving DecidableEq, Repr

/-- A Data without the tag reads as marked `0`. -/
def Data.getCongestionMark (data : Data) : ℕ := data.congestionMark.getD 0

def Data.setCongestionMark (data : Data) (mark : ℕ) : Data :=
  { data with congestionMark := some mark }

@[simp] theorem Data.getCongestionMark_set (data : Data) (mark : ℕ) :
    (data.setCongestionMark mark).getCongestionMark = mark := rfl

structure ValHeader where
  sa : String
  da : String
  phPos : String
  rn : String
  hopC : UInt8
  deriving DecidableEq, Repr

def maxHops : UInt8 := 9

/-- The network packet inside a `ValPacket`; which constructor it is is what
`isSet()` reports. -/
inductive Payload
  | notSet
  | interest (interest : Interest)
  | data (data : Data)
  deriving DecidableEq, Repr

structure ValPacket where
  valHeader : ValHeader
  payload : Payload
  deriving DecidableEq, Repr

namespace ValPacket

/-- The hop count in the header. -/
def hopC (valPkt : ValPacket) : UInt8 := valPkt.valHeader.hopC

/-- `isSet() == DATA_SET`. -/
def isData (valPkt : ValPacket) : Bool :=
  match valPkt.payload with
  | .data _ => true
  | _ => false

/-- `isSet() == INTEREST_SET`. -/
def isInterest (valPkt : ValPacket) : Bool :=
  match valPkt.payload with
  | .interest _ => true
  | _ => false

/-- The test of `PFT::findMatch`: packets of the same NDN type, Interests with
the same nonce or Data with the same signature. -/
def sameNdnPacket (lhs rhs : ValPacket) : Bool :=
  match lhs.payload, rhs.payload with
  | .interest i, .interest j => i.nonce == j.nonce
  | .data d, .data e => d.signature == e.signature
  | _, _ => false

theorem sameNdnPacket_interest {lhs rhs : ValPacket} {i : Interest}
    (h : lhs.payload = .interest i) :
    lhs.sameNdnPacket rhs ↔ ∃ j, rhs.payload = .interest j ∧ i.nonce = j.nonce := by
  cases hr : rhs.payload <;> simp [sameNdnPacket, h, hr]

theorem sameNdnPacket_data {lhs rhs : ValPacket} {d : Data} (h : lhs.payload = .data d) :
    lhs.sameNdnPacket rhs ↔ ∃ e, rhs.payload = .data e ∧ d.signature = e.signature := by
  cases hr : rhs.payload <;> simp [sameNdnPacket, h, hr]

theorem sameNdnPacket_comm (lhs rhs : ValPacket) :
    lhs.sameNdnPacket rhs = rhs.sameNdnPacket lhs := by
  cases hl : lhs.payload <;> cases hr : rhs.payload <;> simp only [sameNdnPacket, hl, hr]
  · exact BEq.comm
  · exact BEq.comm

/-- Two packets that match a third match each other. -/
theorem sameNdnPacket_trans {a b c : ValPacket} (hab : a.sameNdnPacket b)
    (hac : a.sameNdnPacket c) : b.sameNdnPacket c := by
  cases ha : a.payload with
  | notSet => simp [sameNdnPacket, ha] at hab
  | interest i =>
    obtain ⟨j, hb, hij⟩ := (sameNdnPacket_interest ha).mp hab
    obtain ⟨k, hc, hik⟩ := (sameNdnPacket_interest ha).mp hac
    exact (sameNdnPacket_interest hb).mpr ⟨k, hc, hij.symm.trans hik⟩
  | data d =>
    obtain ⟨e, hb, hde⟩ := (sameNdnPacket_data ha).mp hab
    obtain ⟨f, hc, hdf⟩ := (sameNdnPacket_data ha).mp hac
    exact (sameNdnPacket_data hb).mpr ⟨f, hc, hde.symm.trans hdf⟩

end ValPacket

end ValProofs
