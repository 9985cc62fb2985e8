import ValProofs.Val.Delays

/-!
How the waiting times of `ValDistancesStrategy` depend on the distance.

Up to the distance that stands for the longest waiting time they do what the
comments in the code say: less distance less time, or more distance less time.
Beyond it each of the functions returns something in the wrong unit, so the order
is lost there: `calcFwdTimer` adds a gap in milliseconds as nanoseconds, and
`calcInvertedFwdTimer` adds the shortest waiting time of an Interest once more, or
a million times.
-/

namespace ValProofs

namespace ValDistancesStrategy

/-- The longest waiting time, in nanoseconds. -/
def maxTime (isData : Bool) : ℤ := (if isData then maxDataWait else maxInterestWait) * 1000000

theorem timeGap_eq (isData : Bool) : timeGap isData = 30 := by
  cases isData <;> rfl

theorem maxTime_eq (isData : Bool) : maxTime isData = minTime isData + 30000000 := by
  cases isData <;> rfl

theorem maxDist_pos {hopC : UInt8} {toArea : Bool} (h : toArea = true → hopC ≠ 0) :
    0 < maxDist hopC toArea := by
  cases toArea with
  | false => exact Nat.cast_pos.mpr (by decide)
  | true =>
    have hpos : 0 < hopC.toNat := Nat.pos_of_ne_zero fun hzero => h rfl (UInt8.toNat_inj.mp hzero)
    exact Nat.cast_pos.mpr (Nat.mul_pos hpos (by decide))

theorem toLong_intCast (n : ℤ) : toLong (n : ℚ) = n := by
  unfold toLong
  split
  · exact Int.floor_intCast n
  · exact Int.ceil_intCast n

/-! ### Less distance, less time -/

section Fwd

variable {dist dist₁ dist₂ : ℚ} {hopC : UInt8} {toArea : Bool}

theorem calcFwdTimer_near (h : toArea = true → dist ≤ maxDist hopC toArea) (hdist : 0 ≤ dist)
    (hmax : 0 < maxDist hopC toArea) (isData : Bool) (random : ℤ) :
    calcFwdTimer dist hopC toArea isData random =
      minTime isData + ⌊dist * (30000000 / maxDist hopC toArea)⌋ + random := by
  have htime : dist / (maxDist hopC toArea / 30) * 1000000 =
      dist * (30000000 / maxDist hopC toArea) := by
    field_simp
    ring
  have hnonneg : 0 ≤ dist * (30000000 / maxDist hopC toArea) := by positivity
  rw [calcFwdTimer, if_neg fun hfar => not_lt.mpr (h hfar.1) hfar.2, timeGap_eq]
  dsimp only
  rw [htime, toLong_of_nonneg hnonneg]

theorem calcFwdTimer_far (hfar : maxDist hopC true < dist) (isData : Bool) (random : ℤ) :
    calcFwdTimer dist hopC true isData random = minTime isData + 30 + random := by
  have hgap : toLong 30 = 30 := toLong_intCast 30
  rw [calcFwdTimer, if_pos ⟨rfl, hfar⟩, timeGap_eq, hgap]

/-- The waits within the range are in the order of the distances. -/
theorem floor_wait_mono (hmax : 0 < maxDist hopC toArea) (hle : dist₁ ≤ dist₂) :
    ⌊dist₁ * (30000000 / maxDist hopC toArea)⌋ ≤ ⌊dist₂ * (30000000 / maxDist hopC toArea)⌋ := by
  apply Int.floor_mono
  have hfactor : 0 ≤ 30000000 / maxDist hopC toArea := by positivity
  exact mul_le_mul_of_nonneg_right hle hfactor

/-- Only a wait within 30 nanoseconds of the shortest is not above that of the
distances out of range. -/
theorem floor_wait_le_iff (hhop : hopC ≠ 0) :
    ⌊dist * (30000000 / maxDist hopC true)⌋ ≤ 30 ↔ dist * 3000000 < hopC.toNat * 341 := by
  have hpos : 0 < maxDist hopC true := maxDist_pos fun _ => hhop
  have hmax : maxDist hopC true = hopC.toNat * 110 := by
    rw [maxDist, if_pos rfl, Nat.cast_mul]
    rfl
  have hwait : dist * (30000000 / maxDist hopC true) = dist * 30000000 / maxDist hopC true := by
    ring
  rw [Int.floor_le_iff, hwait, div_lt_iff₀ hpos, hmax]
  push_cast
  constructor
  · intro h
    linarith
  · intro h
    linarith

end Fwd

/-- **Closer relays wait no longer**, unless the distance to the area is out of
range for the farther relay only: then the farther relay waits no more than 30
nanoseconds beyond the shortest time, which is less than what a relay waits
within the range that is not next to the area's centre. -/
theorem calcFwdTimer_le_iff {dist₁ dist₂ : ℚ} (hnonneg : 0 ≤ dist₁) (hle : dist₁ ≤ dist₂)
    {hopC : UInt8} (hhop : 1 ≤ hopC ∧ hopC ≤ 255) (toArea isData : Bool) (random : ℤ) :
    calcFwdTimer dist₁ hopC toArea isData random ≤ calcFwdTimer dist₂ hopC toArea isData random ↔
      (toArea = true ∧ dist₁ ≤ maxDist hopC true ∧ maxDist hopC true < dist₂ →
        dist₁ * 3000000 < hopC.toNat * 341) := by
  have hhop' : hopC ≠ 0 := by
    rintro rfl
    exact absurd hhop.1 (by decide)
  have hmax : 0 < maxDist hopC toArea := maxDist_pos fun _ => hhop'
  by_cases hnear₂ : toArea = true → dist₂ ≤ maxDist hopC toArea
  · -- both are within the range, or there is none
    have hnear₁ : toArea = true → dist₁ ≤ maxDist hopC toArea :=
      fun htrue => hle.trans (hnear₂ htrue)
    rw [calcFwdTimer_near hnear₁ hnonneg hmax, calcFwdTimer_near hnear₂ (hnonneg.trans hle) hmax]
    have hmono := floor_wait_mono hmax hle
    refine iff_of_true (by omega) ?_
    rintro ⟨rfl, -, hfar⟩
    exact absurd (hnear₂ rfl) (not_le.mpr hfar)
  · obtain ⟨rfl, hfar₂⟩ := Classical.not_imp.mp hnear₂
    rw [not_le] at hfar₂
    rw [calcFwdTimer_far hfar₂]
    by_cases hnear₁ : dist₁ ≤ maxDist hopC true
    · rw [calcFwdTimer_near (fun _ => hnear₁) hnonneg hmax, ← floor_wait_le_iff hhop']
      constructor
      · intro hwait _
        omega
      · intro hshort
        have := hshort ⟨rfl, hnear₁, hfar₂⟩
        omega
    · rw [calcFwdTimer_far (not_le.mp hnear₁)]
      exact iff_of_true le_rfl fun h => absurd h.2.1 hnear₁

/-- Two relays within reach of the area. -/
theorem calcFwdTimer_le_iff_near :
    calcFwdTimer 50 1 true false 0 ≤ calcFwdTimer 100 1 true false 0 :=
  (calcFwdTimer_le_iff (by norm_num) (by norm_num) (by decide) true false 0).mpr
    fun hfar => absurd hfar.2.2 (by decide +kernel)

/-- At 100 meters from the area's centre the wait is 59 milliseconds, and at 111
meters 32. -/
theorem farther_relay_waits_less :
    calcFwdTimer 100 1 true false 0 = 59272727 ∧ calcFwdTimer 111 1 true false 0 = 32000030 ∧
      ¬ calcFwdTimer 100 1 true false 0 ≤ calcFwdTimer 111 1 true false 0 := by
  decide +kernel

/-! ### More distance, less time -/

section Inverted

variable {dist dist₁ dist₂ : ℚ} {hopC : UInt8} {toArea : Bool}

/-- Within the range no more than the gap is taken off. -/
theorem inverted_part_le (hmax : 0 < maxDist hopC toArea) (h : dist ≤ maxDist hopC toArea) :
    30 / maxDist hopC toArea * dist ≤ 30 := by
  rw [div_mul_eq_mul_div, div_le_iff₀ hmax]
  linarith

theorem calcInvertedFwdTimer_near (h : dist ≤ maxDist hopC toArea) (hmax : 0 < maxDist hopC toArea)
    (isData : Bool) (random : ℤ) :
    calcInvertedFwdTimer dist hopC toArea isData random =
      minTime isData + ⌊(30 - 30 / maxDist hopC toArea * dist) * 1000000⌋ + random := by
  have hpart := inverted_part_le hmax h
  have hnonneg : 0 ≤ (30 - 30 / maxDist hopC toArea * dist) * 1000000 := by linarith
  rw [calcInvertedFwdTimer, if_neg fun hfar => not_lt.mpr h hfar.2, timeGap_eq]
  dsimp only
  rw [if_pos h, toLong_of_nonneg hnonneg]

theorem calcInvertedFwdTimer_far (h : maxDist hopC toArea < dist) (isData : Bool) (random : ℤ) :
    calcInvertedFwdTimer dist hopC toArea isData random =
      minTime isData + minTime isData * (if toArea then 1 else 1000000) + random := by
  have hlong : toLong ((minTime isData : ℚ) * 1000000) = minTime isData * 1000000 := by
    rw [← toLong_intCast (minTime isData * 1000000)]
    push_cast
    rfl
  rw [calcInvertedFwdTimer]
  cases toArea with
  | true => rw [if_pos ⟨rfl, h⟩, if_pos rfl, mul_one]
  | false =>
    rw [if_neg fun hfar => Bool.false_ne_true hfar.1]
    dsimp only
    rw [if_neg (not_le.mpr h), hlong]
    rfl

/-- Within the range the wait is between the shortest and the longest. -/
theorem floor_inverted_mem (hmax : 0 < maxDist hopC toArea) (hdist : 0 ≤ dist)
    (h : dist ≤ maxDist hopC toArea) :
    0 ≤ ⌊(30 - 30 / maxDist hopC toArea * dist) * 1000000⌋ ∧
      ⌊(30 - 30 / maxDist hopC toArea * dist) * 1000000⌋ ≤ 30000000 := by
  have hpart := inverted_part_le hmax h
  have hpart' : 0 ≤ 30 / maxDist hopC toArea * dist := by positivity
  constructor
  · apply Int.floor_nonneg.mpr
    linarith
  · apply floor_le_of_le
    push_cast
    linarith

theorem floor_inverted_anti (hmax : 0 < maxDist hopC toArea) (hle : dist₁ ≤ dist₂) :
    ⌊(30 - 30 / maxDist hopC toArea * dist₂) * 1000000⌋ ≤
      ⌊(30 - 30 / maxDist hopC toArea * dist₁) * 1000000⌋ := by
  apply Int.floor_mono
  have hfactor : 0 ≤ 30 / maxDist hopC toArea := by positivity
  have hpart := mul_le_mul_of_nonneg_left hle hfactor
  linarith

end Inverted

/-- The wait, without the random delay, is one that the packet type allows. -/
def WithinWaits (dist : ℚ) (hopC : UInt8) (toArea isData : Bool) : Prop :=
  minTime isData ≤ calcInvertedFwdTimer dist hopC toArea isData 0 ∧
    calcInvertedFwdTimer dist hopC toArea isData 0 ≤ maxTime isData

theorem withinWaits_iff {dist : ℚ} (hdist : 0 ≤ dist) {hopC : UInt8} {toArea : Bool}
    (hmax : 0 < maxDist hopC toArea) (isData : Bool) :
    WithinWaits dist hopC toArea isData ↔ isData = true ∨ dist ≤ maxDist hopC toArea := by
  rw [WithinWaits, maxTime_eq]
  by_cases hnear : dist ≤ maxDist hopC toArea
  · have hmem := floor_inverted_mem hmax hdist hnear
    rw [calcInvertedFwdTimer_near hnear hmax]
    exact iff_of_true (by omega) (.inr hnear)
  · rw [calcInvertedFwdTimer_far (not_le.mp hnear)]
    cases isData with
    | true =>
      have hmin : minTime true = 0 := rfl
      rw [hmin]
      exact iff_of_true (by omega) (.inl rfl)
    | false =>
      have hmin : minTime false = 32000000 := rfl
      rw [hmin]
      refine iff_of_false ?_ (not_or.mpr ⟨Bool.false_ne_true, hnear⟩)
      split <;> omega

/-- **Farther relays wait no longer** in the exploration, and never less or more
than the packet type allows, if the packet is a Data or the distance is in range.
The shortest wait of a Data is zero, so that it does not matter in which unit it
is added. -/
theorem calcInvertedFwdTimer_iff {dist₁ dist₂ : ℚ} (hnonneg : 0 ≤ dist₁) (hle : dist₁ ≤ dist₂)
    {hopC : UInt8} {toArea : Bool} (hhop : toArea = true → 1 ≤ hopC) (isData : Bool) (random : ℤ) :
    (calcInvertedFwdTimer dist₂ hopC toArea isData random ≤
        calcInvertedFwdTimer dist₁ hopC toArea isData random ∧
      WithinWaits dist₁ hopC toArea isData ∧ WithinWaits dist₂ hopC toArea isData) ↔
      isData = true ∨ dist₂ ≤ maxDist hopC toArea := by
  have hmax : 0 < maxDist hopC toArea := by
    refine maxDist_pos fun htrue hzero => ?_
    exact absurd (hzero ▸ hhop htrue) (by decide)
  rw [withinWaits_iff hnonneg hmax, withinWaits_iff (hnonneg.trans hle) hmax]
  constructor
  · rintro ⟨-, -, h⟩
    exact h
  · intro h
    refine ⟨?_, h.imp_right hle.trans, h⟩
    by_cases hnear₂ : dist₂ ≤ maxDist hopC toArea
    · have hanti := floor_inverted_anti hmax hle
      rw [calcInvertedFwdTimer_near hnear₂ hmax, calcInvertedFwdTimer_near (hle.trans hnear₂) hmax]
      omega
    · -- a Data that is out of range does not wait at all
      obtain rfl : isData = true := h.resolve_right hnear₂
      have hmin : minTime true = 0 := rfl
      rw [calcInvertedFwdTimer_far (not_le.mp hnear₂), hmin]
      by_cases hnear₁ : dist₁ ≤ maxDist hopC toArea
      · have hmem := floor_inverted_mem hmax hnonneg hnear₁
        rw [calcInvertedFwdTimer_near hnear₁ hmax, hmin]
        omega
      · rw [calcInvertedFwdTimer_far (not_le.mp hnear₁), hmin]

/-- Two distances within the signal range. -/
theorem calcInvertedFwdTimer_iff_near :
    calcInvertedFwdTimer 100 0 false false 0 ≤ calcInvertedFwdTimer 50 0 false false 0 ∧
      WithinWaits 50 0 false false ∧ WithinWaits 100 0 false false :=
  (calcInvertedFwdTimer_iff (by norm_num) (by norm_num) (by decide) false 0).mpr
    (.inr (by decide +kernel))

/-- Behind the signal range an Interest waits for almost nine hours, and behind the
range of the area 64 milliseconds. -/
theorem farther_relay_waits_more :
    (calcInvertedFwdTimer 110 0 false false 0 = 32000000 ∧
      calcInvertedFwdTimer 111 0 false false 0 = 32000032000000 ∧
      calcInvertedFwdTimer 110 1 true false 0 = 32000000 ∧
      calcInvertedFwdTimer 111 1 true false 0 = 64000000) ∧
    ¬ calcInvertedFwdTimer 111 0 false false 0 ≤ calcInvertedFwdTimer 110 0 false false 0 ∧
      ¬ WithinWaits 111 0 false false ∧ ¬ WithinWaits 111 1 true false := by
  unfold WithinWaits
  decide +kernel

end ValDistancesStrategy

end ValProofs
