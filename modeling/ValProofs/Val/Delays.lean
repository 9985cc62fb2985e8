import Mathlib.Algebra.Order.Floor.Ring
import Mathlib.Data.Rat.Floor
import Mathlib.Tactic.FieldSimp
import Mathlib.Tactic.Linarith
import Mathlib.Tactic.NormNum
import Mathlib.Tactic.Positivity
import Mathlib.Tactic.Ring
import ValProofs.Val.Machine

/-!
The waiting times that `ValDistancesStrategy` computes before a relay forwards a
packet. A relay that is in a better position waits less, and all of them should
have forwarded before the previous hop misses its implicit ACK.

The distances are arbitrary, as `uint32_t`; the arithmetic that the code does in
`double` is done in the rationals here.
-/

namespace ValProofs

namespace ValDistancesStrategy

/-! ### The constants of `ValStrategy`, in milliseconds -/

def minInterestWait : ℤ := 32

def maxInterestWait : ℤ := 62

def minDataWait : ℤ := 0

def maxDataWait : ℤ := 30

/-- The conversion of a `double` to `long int`, which drops the fraction. -/
def toLong (x : ℚ) : ℤ := if 0 ≤ x then ⌊x⌋ else ⌈x⌉

/-- The range of the waiting time. -/
def timeGap (isData : Bool) : ℚ :=
  if isData then (maxDataWait - minDataWait : ℤ) else (maxInterestWait - minInterestWait : ℤ)

/-- The shortest waiting time, in nanoseconds. -/
def minTime (isData : Bool) : ℤ := (if isData then minDataWait else minInterestWait) * 1000000

/-- The distance that stands for the longest waiting time. -/
def maxDist (hopC : UInt8) (toArea : Bool) : ℚ :=
  if toArea then ((hopC.toNat * signalRange.toNat : ℕ) : ℚ) else (signalRange.toNat : ℚ)

/-- Less distance, less time; `random` is `generateMicroSecondDelay()`. With
`toArea` the hop count must not be zero. -/
def calcFwdTimer (dist : ℚ) (hopC : UInt8) (toArea isData : Bool) (random : ℤ) : ℤ :=
  if toArea = true ∧ dist > maxDist hopC toArea then
    -- The gap is in milliseconds, but it is added as nanoseconds.
    minTime isData + toLong (timeGap isData) + random
  else
    let time := dist / (maxDist hopC toArea / timeGap isData) * 1000000
    minTime isData + toLong time + random

/-- More distance, less time. -/
def calcInvertedFwdTimer (dist : ℚ) (hopC : UInt8) (toArea isData : Bool) (random : ℤ) : ℤ :=
  if toArea = true ∧ dist > maxDist hopC toArea then
    minTime isData + minTime isData + random
  else
    let time :=
      if dist ≤ maxDist hopC toArea then
        timeGap isData - timeGap isData / maxDist hopC toArea * dist
      -- Already in nanoseconds.
      else (minTime isData : ℚ)
    minTime isData + toLong (time * 1000000) + random

end ValDistancesStrategy

/-- The waiting times of the strategy with whatever distances `g` has. -/
def Geometry.timed (g : Geometry) : Geometry :=
  { g with
    calcFwdTimer := fun dist hopC toArea isData delay =>
      (ValDistancesStrategy.calcFwdTimer dist.toNat hopC toArea isData delay).toNat
    calcInvertedFwdTimer := fun dist hopC toArea isData delay =>
      (ValDistancesStrategy.calcInvertedFwdTimer dist.toNat hopC toArea isData delay).toNat }

namespace ValDistancesStrategy

/-! ### Bounds -/

theorem toLong_of_nonneg {x : ℚ} (h : 0 ≤ x) : toLong x = ⌊x⌋ := if_pos h

theorem floor_le_of_le {x : ℚ} {bound : ℤ} (h : x ≤ bound) : ⌊x⌋ ≤ bound :=
  Int.floor_le_iff.mpr (lt_of_le_of_lt h (lt_add_one _))

/-- Towards an area with a hop count the wait is at most 62 milliseconds and the
random delay, whatever the distance. -/
theorem calcFwdTimer_toArea_le (dist : ℕ) {hopC : UInt8} (hhop : hopC ≠ 0) (random : ℤ) :
    calcFwdTimer dist hopC true false random ≤ 62000000 + random := by
  have hgap : timeGap false = 30 := rfl
  have hmin : minTime false = 32000000 := rfl
  rw [calcFwdTimer, hgap, hmin]
  split
  · have hlong : toLong 30 = 30 := by decide +kernel
    rw [hlong]
    omega
  · rename_i hnear
    have hle : (dist : ℚ) ≤ maxDist hopC true := not_lt.mp fun hlt => hnear ⟨rfl, hlt⟩
    have hpos : 0 < maxDist hopC true := by
      have hhop' : 0 < hopC.toNat := Nat.pos_of_ne_zero fun h => hhop (UInt8.toNat_inj.mp h)
      exact Nat.cast_pos.mpr (Nat.mul_pos hhop' (by decide))
    have htime : (dist : ℚ) / (maxDist hopC true / 30) * 1000000 ≤ ((30000000 : ℤ) : ℚ) := by
      have hone : (dist : ℚ) / maxDist hopC true ≤ 1 := (div_le_one hpos).mpr hle
      calc (dist : ℚ) / (maxDist hopC true / 30) * 1000000
          = (dist : ℚ) / maxDist hopC true * 30000000 := by field_simp; ring
        _ ≤ 1 * 30000000 := by gcongr
        _ = ((30000000 : ℤ) : ℚ) := by norm_num
    have hnonneg : 0 ≤ (dist : ℚ) / (maxDist hopC true / 30) * 1000000 := by positivity
    have hfloor := floor_le_of_le htime
    dsimp only
    rw [toLong_of_nonneg hnonneg]
    omega

/-- For Data the distance is not cut off at the signal range. -/
theorem calcFwdTimer_data (dist : ℕ) (random : ℤ) :
    calcFwdTimer dist 0 false true random = ⌊(dist : ℚ) * 3000000 / 11⌋ + random := by
  have hgap : timeGap true = 30 := rfl
  have hmin : minTime true = 0 := rfl
  have hmax : maxDist 0 false = 110 := rfl
  have htime : (dist : ℚ) / (110 / 30) * 1000000 = (dist : ℚ) * 3000000 / 11 := by
    field_simp
    ring
  rw [calcFwdTimer, hgap, hmin, hmax, if_neg fun h => Bool.false_ne_true h.1]
  dsimp only
  rw [htime, toLong_of_nonneg (by positivity), zero_add]

theorem calcFwdTimer_data_lt_iff (dist : ℕ) {random : ℤ} (hlow : 10000 ≤ random)
    (hhigh : random ≤ 40000) : calcFwdTimer dist 0 false true random < 40000000 ↔ dist ≤ 146 := by
  rw [calcFwdTimer_data]
  constructor
  · intro hlt
    by_contra hfar
    have hdist : (147 : ℚ) ≤ dist := by
      have hle : 147 ≤ dist := by omega
      exact_mod_cast hle
    have hfloor : (40000000 : ℤ) ≤ ⌊(dist : ℚ) * 3000000 / 11⌋ := by
      rw [Int.le_floor, le_div_iff₀ (by norm_num)]
      push_cast
      linarith
    omega
  · intro hnear
    have hdist : (dist : ℚ) ≤ 146 := by exact_mod_cast hnear
    have hfloor : ⌊(dist : ℚ) * 3000000 / 11⌋ ≤ 39900000 := by
      refine floor_le_of_le ?_
      rw [div_le_iff₀ (by norm_num)]
      push_cast
      linarith
    omega

/-- The inverted timer of an Interest. Beyond the signal range the shortest wait,
which is in nanoseconds, is scaled to nanoseconds once more. -/
theorem calcInvertedFwdTimer_interest_lt_iff (dist : ℕ) {random : ℤ} (hlow : 10000 ≤ random)
    (hhigh : random ≤ 40000) :
    calcInvertedFwdTimer dist 0 false false random < 70000000 ↔ dist ≤ 110 := by
  have hgap : timeGap false = 30 := rfl
  have hmin : minTime false = 32000000 := rfl
  have hmax : maxDist 0 false = 110 := rfl
  rw [calcInvertedFwdTimer, hgap, hmin, hmax, if_neg fun h => Bool.false_ne_true h.1]
  by_cases hnear : dist ≤ 110
  · have hdist : (dist : ℚ) ≤ 110 := by exact_mod_cast hnear
    have hnonneg : 0 ≤ (30 - 30 / 110 * (dist : ℚ)) * 1000000 := by linarith
    have hfloor : ⌊(30 - 30 / 110 * (dist : ℚ)) * 1000000⌋ ≤ 30000000 := by
      refine floor_le_of_le ?_
      have hpos : (0 : ℚ) ≤ dist := Nat.cast_nonneg dist
      push_cast
      linarith
    dsimp only
    rw [if_pos hdist, toLong_of_nonneg hnonneg]
    exact iff_of_true (by omega) hnear
  · have hdist : ¬ (dist : ℚ) ≤ 110 := fun h => hnear (by exact_mod_cast h)
    have hlong : toLong (((32000000 : ℤ) : ℚ) * 1000000) = 32000000000000 := by decide +kernel
    dsimp only
    rw [if_neg hdist, hlong]
    exact iff_of_false (by omega) hnear

end ValDistancesStrategy

namespace ValForwarder

/-! ### Relay decisions -/

/-- How long the previous hop waits for the implicit ACK of a packet, in
nanoseconds. -/
def implicitAckTime (valPkt : ValPacket) : ℕ :=
  (Pft.Entry.make valPkt 0).getDefaultImpAckTimerDuration * 1000000

/-- The previous hop of an Interest is within the signal range, if the distance
to it counts at all. -/
def InterestInTime (g : Geometry) (v : ValForwarder) (ifntEntry : Ifnt.Entry) : Prop :=
  (ifntEntry.da ≠ "0" ∧ ifntEntry.da ≠ v.mobility.area) ∨
    g.getDistanceToPoint ifntEntry.phPos v.mobility.pos ≤ signalRange

/-- The mean distance to the next hops of a Data is at most 146 meters. -/
def DataInTime (g : Geometry) (v : ValForwarder) (ifntEntries : List Ifnt.Entry) : Prop :=
  g.getMultiPointDist v.mobility.pos (ifntEntries.map Ifnt.Entry.phPos) ≤ 146

section InTime

variable {g : Geometry} {v : ValForwarder} {out : Outgoing}

theorem interest_in_time_iff (hlow : 10000 ≤ v.mobility.delay) (hhigh : v.mobility.delay ≤ 40000)
    {faceId : ℕ} {ifntEntry : Ifnt.Entry} {interest : Interest}
    (h : v.doAfterIfntHit g.timed faceId ifntEntry interest = some out) :
    out.duration < implicitAckTime out.valPkt ↔ InterestInTime g v ifntEntry := by
  obtain ⟨hhop, -, hpay, -⟩ := doAfterIfntHit_eq_some h
  have hack : implicitAckTime out.valPkt = 70000000 := by
    simp [implicitAckTime, Pft.Entry.getDefaultImpAckTimerDuration, Pft.Entry.make,
      ValPacket.isData, hpay]
  rw [hack, InterestInTime]
  simp only [doAfterIfntHit, if_neg hhop] at h
  by_cases hknown : ifntEntry.da ≠ "0" ∧ ifntEntry.da ≠ v.mobility.area
  · rw [if_pos hknown] at h
    split at h
    · cases h
      have hle := ValDistancesStrategy.calcFwdTimer_toArea_le
        (g.getDistanceToArea v.mobility.pos ifntEntry.da).toNat hhop v.mobility.delay
      have hlt : (62000000 : ℤ) + v.mobility.delay < 70000000 := by omega
      exact iff_of_true ((Int.toNat_lt' (by decide)).mpr (lt_of_le_of_lt hle hlt)) (.inl hknown)
    · cases h
  · rw [if_neg hknown] at h
    cases h
    have hiff := ValDistancesStrategy.calcInvertedFwdTimer_interest_lt_iff
      (g.getDistanceToPoint ifntEntry.phPos v.mobility.pos).toNat
      (Int.ofNat_le.mpr hlow) (Int.ofNat_le.mpr hhigh)
    rw [or_iff_right hknown, UInt32.le_iff_toNat_le]
    exact (Int.toNat_lt' (by decide)).trans hiff

theorem data_in_time_iff (hlow : 10000 ≤ v.mobility.delay) (hhigh : v.mobility.delay ≤ 40000)
    {dfntEntry : Dfnt.Entry} {ifntEntries : List Ifnt.Entry} {data : Data}
    (h : v.doAfterDfntHit g.timed dfntEntry ifntEntries data = some out) :
    out.duration < implicitAckTime out.valPkt ↔ DataInTime g v ifntEntries := by
  obtain ⟨hhop, -, hpay, -⟩ := doAfterDfntHit_eq_some h
  have hack : implicitAckTime out.valPkt = 40000000 := by
    simp [implicitAckTime, Pft.Entry.getDefaultImpAckTimerDuration, Pft.Entry.make,
      ValPacket.isData, hpay]
  rw [hack, DataInTime]
  simp only [doAfterDfntHit, if_neg hhop] at h
  split at h
  · cases h
    have hiff := ValDistancesStrategy.calcFwdTimer_data_lt_iff
      (g.getMultiPointDist v.mobility.pos (ifntEntries.map Ifnt.Entry.phPos)).toNat
      (Int.ofNat_le.mpr hlow) (Int.ofNat_le.mpr hhigh)
    rw [UInt32.le_iff_toNat_le]
    exact (Int.toNat_lt' (by decide)).trans hiff
  · cases h

end InTime

/-- **The waiting time of a relay.** A relay forwards before the implicit ACK of
the previous hop is overdue exactly if it is near enough: an Interest with a known
destination always, one without if the previous hop is within the signal range,
and a Data if the mean distance to its next hops is at most 146 meters. -/
theorem relay_in_time_iff (g : Geometry) (v : ValForwarder)
    (hdelay : 10000 ≤ v.mobility.delay ∧ v.mobility.delay ≤ 40000) :
    (∀ faceId ifntEntry interest out, 1 ≤ ifntEntry.hopC ∧ ifntEntry.hopC ≤ 9 →
      v.doAfterIfntHit g.timed faceId ifntEntry interest = some out →
      (out.duration < implicitAckTime out.valPkt ↔ InterestInTime g v ifntEntry)) ∧
    ∀ dfntEntry ifntEntries data out,
      v.doAfterDfntHit g.timed dfntEntry ifntEntries data = some out →
      (out.duration < implicitAckTime out.valPkt ↔ DataInTime g v ifntEntries) :=
  ⟨fun _ _ _ _ _ h => interest_in_time_iff hdelay.1 hdelay.2 h,
    fun _ _ _ _ h => data_in_time_iff hdelay.1 hdelay.2 h⟩

/-- The node stands 150 meters from everybody else. -/
def sparseGeometry : Geometry :=
  { flatGeometry with
    getDistanceToPoint := fun _ _ => 150
    getMultiPointDist := fun pos _ => if pos = "0:0:0" then 150 else 300 }

/-- An Interest without a destination, from a vehicle in area `A2`. -/
def exploringEntry : Ifnt.Entry :=
  Ifnt.Entry.make ⟨"A2", "0", "150:0:0", "/a", 10⟩ sampleInterest 257

/-- A Data that goes to area `A2`. -/
def returningEntry : Dfnt.Entry :=
  Dfnt.Entry.make ⟨"A3", "A2", "300:0:0", "/a", 5⟩ sampleData 257

/-- What is sent on would come too late. -/
theorem relay_in_time_iff_fresh :
    (fresh.doAfterIfntHit sparseGeometry.timed 256 exploringEntry sampleInterest).isSome = true ∧
      ¬ InterestInTime sparseGeometry fresh exploringEntry :=
  ⟨rfl, fun hintime => absurd (((relay_in_time_iff sparseGeometry fresh (by decide)).1 256 _
    sampleInterest _ (by decide) rfl).mpr hintime) (by decide +kernel)⟩

/-- Both waits are longer than the implicit ACK: the Interest's is almost nine
hours, and the Data's 40.9 milliseconds. -/
theorem relay_too_late :
    (∃ out, fresh.doAfterIfntHit sparseGeometry.timed 256 exploringEntry sampleInterest =
        some out ∧ out.duration = 32000032010000 ∧ implicitAckTime out.valPkt = 70000000) ∧
      ∃ out, fresh.doAfterDfntHit sparseGeometry.timed returningEntry [exploringEntry]
        sampleData = some out ∧ out.duration = 40919090 ∧
          implicitAckTime out.valPkt = 40000000 :=
  ⟨⟨_, rfl, by decide +kernel, rfl⟩, ⟨_, rfl, by decide +kernel, rfl⟩⟩

end ValForwarder

end ValProofs
