import Mathlib.Algebra.Order.Floor.Semiring
import Mathlib.Data.Rat.Floor
import ValProofs.Lib.Keyed

/-!
The round trip times of a consumer: `RttMeanDeviation`.

The history has an entry for a sequence number that has been sent, with the time; if the
number is sent again while it is there the entry is only marked. When the Data comes the
entry is taken out, and the time since then is a sample unless it is marked. What becomes of
the samples is the estimator's; whatever it computes, it does not touch the history.
-/

namespace ValProofs

open Lib List

/-- What an estimator makes of the samples, in nanoseconds. -/
structure Estimator (ρ : Type) where
  measurement : ρ → ℕ → ρ
  increaseMultiplier : ρ → ρ
  resetMultiplier : ρ → ρ
  retransmitTimeout : ρ → ℕ

/-- An entry of the history. -/
structure RttHistory where
  seq : UInt32
  time : ℕ
  retx : Bool
  deriving DecidableEq, Repr

structure Rtt (ρ : Type) where
  estimate : ρ
  history : List RttHistory

namespace Rtt

variable {ρ : Type}

def find (rtt : Rtt ρ) (seq : UInt32) : Option RttHistory :=
  rtt.history.find? fun entry => entry.seq = seq

/-- `SentSeq(seq, 1)`. -/
def sentSeq (rtt : Rtt ρ) (now : ℕ) (seq : UInt32) : Rtt ρ :=
  match rtt.find seq with
  | some entry =>
      { rtt with history := replaceFirst RttHistory.seq { entry with retx := true } rtt.history }
  | none => { rtt with history := rtt.history ++ [⟨seq, now, false⟩] }

/-- `AckSeq(ackSeq)`: the estimator, and the sample that is passed to `Measurement`. -/
def ackSeq (E : Estimator ρ) (rtt : Rtt ρ) (now : ℕ) (seq : UInt32) : Rtt ρ × Option ℕ :=
  match rtt.find seq with
  | some entry =>
      let history := eraseKey RttHistory.seq seq rtt.history
      if entry.retx then (⟨rtt.estimate, history⟩, none)
      else
        let m := now - entry.time
        (⟨E.resetMultiplier (E.measurement rtt.estimate m), history⟩, some m)
  | none => (rtt, none)

/-- `ClearSent()`. -/
def clearSent (rtt : Rtt ρ) : Rtt ρ := { rtt with history := [] }

/-- `IncreaseMultiplier()`. -/
def increaseMultiplier (E : Estimator ρ) (rtt : Rtt ρ) : Rtt ρ :=
  { rtt with estimate := E.increaseMultiplier rtt.estimate }

/-! ### What is in the history -/

section

variable {rtt : Rtt ρ} {now : ℕ} {seq other : UInt32}

theorem find_eq_none_iff : rtt.find seq = none ↔ seq ∉ rtt.history.map RttHistory.seq := by
  rw [find, find?_eq_none]
  simp

theorem of_find {entry : RttHistory} (h : rtt.find seq = some entry) :
    entry ∈ rtt.history ∧ entry.seq = seq := by
  rw [find] at h
  exact ⟨mem_of_find?_eq_some h, by simpa using find?_some h⟩

/-- An entry is made once, and marked from then on. -/
theorem find_sentSeq_self : (rtt.sentSeq now seq).find seq =
    some ((rtt.find seq).elim ⟨seq, now, false⟩ fun entry => { entry with retx := true }) := by
  rw [sentSeq]
  cases hfind : rtt.find seq with
  | none =>
    have hnone : rtt.history.find? (fun entry => entry.seq = seq) = none := hfind
    show (rtt.history ++ [_]).find? _ = _
    rw [find?_append, hnone, find?_cons_of_pos (by simp)]
    rfl
  | some entry =>
    obtain ⟨hmem, rfl⟩ := of_find hfind
    have hkey : entry.seq ∈ rtt.history.map RttHistory.seq := mem_map_of_mem hmem
    exact find?_replaceFirst_self (r := { entry with retx := true }) hkey

theorem find_sentSeq_of_ne (h : other ≠ seq) :
    (rtt.sentSeq now seq).find other = rtt.find other := by
  rw [sentSeq]
  cases hfind : rtt.find seq with
  | none =>
    show (rtt.history ++ [_]).find? _ = _
    rw [find?_append, find?_cons_of_neg (by simpa using h.symm), find?_nil, Option.or_none]
    rfl
  | some entry =>
    obtain ⟨-, rfl⟩ := of_find hfind
    exact find?_replaceFirst_of_ne
      (show other ≠ RttHistory.seq { entry with retx := true } from h)

theorem nodup_sentSeq (h : (rtt.history.map RttHistory.seq).Nodup) :
    ((rtt.sentSeq now seq).history.map RttHistory.seq).Nodup := by
  rw [sentSeq]
  cases hfind : rtt.find seq with
  | none =>
    rw [map_append, map_singleton, ← concat_eq_append]
    exact h.concat (find_eq_none_iff.mp hfind)
  | some entry =>
    dsimp only
    rwa [map_replaceFirst]

theorem history_ackSeq (E : Estimator ρ) (rtt : Rtt ρ) (now : ℕ) (seq : UInt32) :
    (rtt.ackSeq E now seq).1.history = eraseKey RttHistory.seq seq rtt.history := by
  rw [ackSeq]
  cases hfind : rtt.find seq with
  | none => exact (eraseKey_of_not_mem (find_eq_none_iff.mp hfind)).symm
  | some entry =>
    dsimp only
    split <;> rfl

end

end Rtt

/-- The members of `RttMeanDeviation` that the samples change; times are in seconds, and exact. -/
structure MeanDeviation where
  currentEstimatedRtt : ℚ
  variance : ℚ
  nSamples : UInt32
  multiplier : UInt16
  deriving DecidableEq

namespace MeanDeviation

/-- The attributes of `RttEstimator` and `RttMeanDeviation`. -/
structure Attributes where
  maxMultiplier : UInt16
  minRto : ℚ
  maxRto : ℚ
  gain : ℚ
  gain2 : ℚ

/-- `Measurement(m)`. -/
def measurement (attributes : Attributes) (r : MeanDeviation) (m : ℕ) : MeanDeviation :=
  let m : ℚ := m / 1000000000
  if r.nSamples ≠ 0 then
    let err := m - r.currentEstimatedRtt
    { r with
      currentEstimatedRtt := r.currentEstimatedRtt + err * attributes.gain
      variance := r.variance + (|err| - r.variance) * attributes.gain2
      nSamples := r.nSamples + 1 }
  else { r with currentEstimatedRtt := m, variance := m / 2, nSamples := r.nSamples + 1 }

/-- `RetransmitTimeout()`. -/
def retransmitTimeout (attributes : Attributes) (r : MeanDeviation) : ℕ :=
  let multiplier : ℚ := r.multiplier.toNat
  ⌊min attributes.maxRto (max (multiplier * attributes.minRto)
    (multiplier * (r.currentEstimatedRtt + 4 * r.variance))) * 1000000000⌋₊

def estimator (attributes : Attributes) : Estimator MeanDeviation where
  measurement := measurement attributes
  increaseMultiplier r :=
    { r with
      multiplier :=
        if r.multiplier.toNat * 2 < attributes.maxMultiplier.toNat then r.multiplier * 2
        else attributes.maxMultiplier }
  resetMultiplier r := { r with multiplier := 1 }
  retransmitTimeout := retransmitTimeout attributes

/-- The defaults of the attributes. -/
def defaults : Attributes := ⟨64, 1 / 5, 200, 1 / 8, 1 / 4⟩

/-- As it is constructed, with the default `InitialEstimation`. -/
def construct : MeanDeviation := ⟨1, 0, 0, 1⟩

end MeanDeviation

end ValProofs
