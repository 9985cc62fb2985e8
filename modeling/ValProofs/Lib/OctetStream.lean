import Mathlib.Algebra.Group.Nat.Defs
import ValProofs.Lib.Tlv

/-!
An input stream of octets, and numbers that are read from it through an iterator.

The iterator has always extracted one octet more than has been used, and it is equal to the end
when the extraction has failed. What it stands on and what is left in the stream are the octets
that are still to be read; the readers of numbers do with them what they do with a list.
-/

namespace ValProofs.Lib

/-- `std::istream`: what has not been extracted, and whether an extraction has failed. -/
structure OctetStream where
  rest : List UInt8
  fail : Bool
  deriving DecidableEq, Repr

namespace OctetStream

def ofOctets (octets : List UInt8) : OctetStream := ⟨octets, false⟩

/-- `is >> octet`, with `noskipws`. -/
def get (is : OctetStream) : OctetStream × Option UInt8 :=
  if is.fail then (is, none)
  else
    match is.rest with
    | [] => (⟨[], true⟩, none)
    | octet :: rest => (⟨rest, false⟩, some octet)

def putback (is : OctetStream) (octet : UInt8) : OctetStream :=
  if is.fail then is else ⟨octet :: is.rest, false⟩

/-- What `is.read` writes; the number of octets is a signed integer. -/
def read (is : OctetStream) (n : ℤ) : List UInt8 :=
  if is.fail then [] else is.rest.take n.toNat

end OctetStream

/-- `std::istream_iterator<uint8_t>`, together with its stream. -/
structure OctetIter where
  value : Option UInt8
  stream : OctetStream
  deriving DecidableEq, Repr

namespace OctetIter

open Tlv

/-- The next octet is extracted: `++begin`, and the constructor. -/
def advance (is : OctetStream) : OctetIter := ⟨is.get.2, is.get.1⟩

/-- `ReadNumberSlow`: up to `size` octets, and the number has 64 bits. -/
def readNumberSlow : ℕ → ℕ → OctetIter → Except Error (ℕ × OctetIter)
  | 0, number, begin => .ok (number, begin)
  | size + 1, number, begin =>
      match begin.value with
      | none => .error ⟨"Insufficient data during TLV parsing"⟩
      | some octet =>
          readNumberSlow size ((number * 256 + octet.toNat) % 2 ^ 64) (advance begin.stream)

def readVarNumber (begin : OctetIter) : Except Error (ℕ × OctetIter) :=
  match begin.value with
  | none => .error ⟨"Empty buffer during TLV parsing"⟩
  | some first =>
      if first < 253 then .ok (first.toNat, advance begin.stream)
      else readNumberSlow (if first = 253 then 2 else if first = 254 then 4 else 8) 0
        (advance begin.stream)

def readType (begin : OctetIter) : Except Error (ℕ × OctetIter) := do
  let (type, begin) ← readVarNumber begin
  if 2 ^ 32 ≤ type then throw ⟨"TLV-TYPE number exceeds allowed maximum"⟩
  return (type, begin)

/-! ### What is left to be read -/

/-- The iterator when these octets are left. -/
def before : List UInt8 → OctetIter
  | [] => ⟨none, ⟨[], true⟩⟩
  | octet :: rest => ⟨some octet, .ofOctets rest⟩

theorem advance_ofOctets (octets : List UInt8) : advance (.ofOctets octets) = before octets := by
  cases octets <;> rfl

theorem readNumberSlow_before (size k number : ℕ) (hsize : k + size ≤ 8)
    (hnumber : number < 256 ^ k) (octets : List UInt8) :
    readNumberSlow size number (before octets) =
      if octets.length < size then .error ⟨"Insufficient data during TLV parsing"⟩
      else .ok ((octets.take size).foldl (fun n octet => n * 256 + octet.toNat) number,
        before (octets.drop size)) := by
  induction size generalizing k number octets with
  | zero => rfl
  | succ size ih =>
    cases octets with
    | nil => rfl
    | cons octet rest =>
      have hnext : number * 256 + octet.toNat < 256 ^ (k + 1) := by
        have := octet.toNat_lt
        rw [Nat.pow_succ]
        omega
      have hle : 256 ^ (k + 1) ≤ 2 ^ 64 :=
        Nat.pow_le_pow_right (by decide) (show k + 1 ≤ 8 by omega)
      rw [before, readNumberSlow]
      dsimp only
      rw [Nat.mod_eq_of_lt (Nat.lt_of_lt_of_le hnext hle), advance_ofOctets,
        ih (k + 1) _ (by omega) hnext]
      simp only [List.length_cons, Nat.add_lt_add_iff_right, List.take_succ_cons,
        List.foldl_cons, List.drop_succ_cons]

theorem readVarNumber_before (octets : List UInt8) :
    readVarNumber (before octets) =
      (Tlv.readVarNumber octets).map fun result => (result.1, before result.2) := by
  cases octets with
  | nil => rfl
  | cons first rest =>
    rw [before, readVarNumber, Tlv.readVarNumber]
    dsimp only
    split
    · rw [advance_ofOctets]
      rfl
    · have hsize : 0 + (if first = 253 then 2 else if first = 254 then 4 else 8) ≤ 8 := by
        split_ifs <;> decide
      generalize (if first = 253 then 2 else if first = 254 then 4 else 8) = size at hsize ⊢
      rw [advance_ofOctets, readNumberSlow_before size 0 0 hsize (by decide), readNumber]
      split <;> rfl

theorem readType_before (octets : List UInt8) :
    readType (before octets) =
      (Tlv.readType octets).map fun result => (result.1, before result.2) := by
  rw [readType, Tlv.readType, readVarNumber_before]
  cases Tlv.readVarNumber octets with
  | error e => rfl
  | ok result =>
    simp only [bind, Except.bind, Except.map]
    split <;> rfl

end OctetIter

end ValProofs.Lib
