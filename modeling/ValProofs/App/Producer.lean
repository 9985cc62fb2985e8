import ValProofs.Lib.BigEndian
import ValProofs.Packet

/-!
The Producer application. It answers every Interest with a Data packet of the
same name, under a signature that its attributes fix once and for all.
-/

namespace ValProofs

open Lib

/-- `tlv::SignatureValue`. -/
def tlvSignatureValue : ℕ := 23

def makeNonNegativeIntegerBlock (type : ℕ) (value : ℕ) : Block :=
  ⟨type, nonNegativeInteger value⟩

/-- The attributes of the application that its answers depend on. -/
structure Producer where
  active : Bool
  virtualPayloadSize : UInt32
  /-- In milliseconds. -/
  freshness : ℕ
  signature : UInt32
  keyLocator : Name
  deriving DecidableEq, Repr

namespace Producer

/-- The signature of every Data packet the application makes. -/
def dataSignature (producer : Producer) : Signature where
  info :=
    { type := 255
      keyLocator :=
        if producer.keyLocator.length > 0 then some (.name producer.keyLocator) else none
      otherTlvs := [] }
  value := makeNonNegativeIntegerBlock tlvSignatureValue producer.signature.toNat

def onInterest (producer : Producer) (interest : Interest) : Option Data :=
  if producer.active then
    some
      { name := interest.name
        signature := producer.dataSignature
        freshnessPeriod := producer.freshness
        content := List.replicate producer.virtualPayloadSize.toNat 0
        congestionMark := none }
  else none

theorem onInterest_eq_some {producer : Producer} {interest : Interest} {data : Data}
    (h : producer.onInterest interest = some data) :
    data.name = interest.name ∧ data.signature = producer.dataSignature := by
  unfold onInterest at h
  split at h
  · cases h
    exact ⟨rfl, rfl⟩
  · cases h

/-- The attributes `KeyLocator` and `Signature` are all a signature depends on. -/
theorem dataSignature_eq_iff (a b : Producer) :
    a.dataSignature = b.dataSignature ↔
      a.keyLocator = b.keyLocator ∧ a.signature = b.signature := by
  constructor
  · intro h
    have hkey := congrArg (fun s => s.info.keyLocator) h
    have hvalue := congrArg (fun s => ofBigEndian s.value.value) h
    simp only [dataSignature, makeNonNegativeIntegerBlock] at hkey hvalue
    refine ⟨?_, ?_⟩
    · by_cases ha : a.keyLocator.length > 0 <;> by_cases hb : b.keyLocator.length > 0
      · simpa [ha, hb] using hkey
      · simp [ha, hb] at hkey
      · simp [ha, hb] at hkey
      · have hanil : a.keyLocator = [] := List.length_eq_zero_iff.mp (by omega)
        have hbnil : b.keyLocator = [] := List.length_eq_zero_iff.mp (by omega)
        rw [hanil, hbnil]
    · have hlt : ∀ n : UInt32, n.toNat < 2 ^ 64 := fun n =>
        Nat.lt_trans n.toNat_lt (by decide)
      rw [ofBigEndian_nonNegativeInteger (hlt _), ofBigEndian_nonNegativeInteger (hlt _)] at hvalue
      exact UInt32.toNat_inj.mp hvalue
  · rintro ⟨hkey, hsig⟩
    simp only [dataSignature, hkey, hsig]

end Producer

end ValProofs
