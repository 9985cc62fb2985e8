import ValProofs.Val.Delays

/-!
The grid of areas. `ValDistancesStrategy` names the squares of 200 meters by a
letter for the column and a digit for the row; positions outside the grid belong
to a square at its border.

Here a `std::string` has one character for each of its octets, and coordinates are
rational. A coordinate is divided by the length of a square and converted to
`int`. The language does not define that conversion for numbers that an `int` does
not hold, so what it gives then is a parameter.

The columns end at `Z`. The rows end at `6`, the row of the step 5, but all that
is farther up is in row `5`.
-/

namespace ValProofs

/-- `ns3::Vector3D`. -/
structure Vector3D where
  x : ℚ
  y : ℚ
  z : ℚ
  deriving DecidableEq, Repr

namespace ValDistancesStrategy

/-- `AREA_SIZE`, in meters. -/
def areaSize : ℤ := 200

/-- The conversion of a `double` to `int`; `undef` is what it gives where it is not
defined. -/
def toInt (undef : ℚ → Int32) (x : ℚ) : ℤ :=
  if -2 ^ 31 ≤ toLong x ∧ toLong x < 2 ^ 31 then toLong x else (undef x).toInt

/-- The conversion of an `int` to `char`. -/
def charOfInt (n : ℤ) : Char := Char.ofNat (n % 256).toNat

/-- The conversion of a `char`, which is signed, to `int`. -/
def intOfChar (c : Char) : ℤ := Int.bmod c.toNat 256

/-- The letter of the column. -/
def originX (undef : ℚ → Int32) (x : ℚ) : Char :=
  let areaXStep := toInt undef (x / areaSize)
  if areaXStep > 25 then 'Z' else charOfInt (65 + areaXStep)

/-- The digit of the row. -/
def originY (undef : ℚ → Int32) (y : ℚ) : Char :=
  let areaYStep := toInt undef (y / areaSize)
  if areaYStep > 5 then '5' else charOfInt (49 + areaYStep)

def getAreaFromPosition (undef : ℚ → Int32) (x y : ℚ) : String :=
  String.ofList [originX undef x, originY undef y]

/-- The middle of the square, in one dimension. Steps below zero are taken for the
first square. -/
def middle (step : ℤ) : ℚ :=
  if 0 ≤ step then ((areaSize * (step + 1) - areaSize / 2 : ℤ) : ℚ) else 100

/-- The first two characters are read through an iterator. The result is none if
one of them is outside the string. -/
def getPositionFromArea (area : String) : Option Vector3D :=
  match area.toList with
  | first :: second :: _ => some ⟨middle (intOfChar first - 65), middle (intOfChar second - 49), 0⟩
  | _ => none

/-! ### Steps and characters -/

theorem toNat_ofNat : ∀ k < 256, (Char.ofNat k).toNat = k := by
  decide +kernel

theorem toNat_charOfInt {n : ℤ} (h0 : 0 ≤ n) (h : n < 256) : (charOfInt n).toNat = n.toNat := by
  rw [charOfInt, Int.emod_eq_of_lt h0 h]
  exact toNat_ofNat _ (by omega)

theorem intOfChar_of_lt {c : Char} (h : c.toNat < 128) : intOfChar c = c.toNat := by
  exact Int.bmod_eq_of_le (by omega) (by omega)

section Steps

variable {x x₁ x₂ : ℚ}

theorem step_nonneg (h0 : 0 ≤ x) : 0 ≤ ⌊x / 200⌋ := Int.floor_nonneg.mpr (by positivity)

theorem step_mono (hle : x₁ ≤ x₂) : ⌊x₁ / 200⌋ ≤ ⌊x₂ / 200⌋ :=
  Int.floor_mono (div_le_div_of_nonneg_right hle (by norm_num))

theorem step_lt_iff (n : ℤ) : ⌊x / 200⌋ < n ↔ x < 200 * n := by
  rw [Int.floor_lt, div_lt_iff₀ (by norm_num), mul_comm]

theorem toLong_step (h0 : 0 ≤ x) : toLong (x / areaSize) = ⌊x / 200⌋ :=
  toLong_of_nonneg (by positivity : 0 ≤ x / 200)

variable (undef : ℚ → Int32)

/-- The conversion is defined below 200 · 2^31 meters. -/
theorem toInt_of_lt (h0 : 0 ≤ x) (h : x < 200 * 2 ^ 31) :
    toInt undef (x / areaSize) = ⌊x / 200⌋ := by
  have hstep : ⌊x / 200⌋ < 2 ^ 31 := (step_lt_iff _).mpr (by exact_mod_cast h)
  have hnonneg := step_nonneg h0
  rw [toInt, toLong_step h0, if_pos ⟨by omega, hstep⟩]

theorem toInt_of_le (h : 200 * 2 ^ 31 ≤ x) :
    toInt undef (x / areaSize) = (undef (x / areaSize)).toInt := by
  have h0 : 0 ≤ x := le_trans (by norm_num) h
  have hstep : ¬ ⌊x / 200⌋ < 2 ^ 31 := by
    rw [step_lt_iff, not_lt]
    exact_mod_cast h
  rw [toInt, toLong_step h0, if_neg fun hrange => hstep hrange.2]

theorem toNat_originX (h0 : 0 ≤ x) (h : x < 200 * 2 ^ 31) :
    ((originX undef x).toNat : ℤ) = 65 + min ⌊x / 200⌋ 25 := by
  have hnonneg := step_nonneg h0
  rw [originX, toInt_of_lt undef h0 h]
  split
  · rename_i hfar
    rw [min_eq_right hfar.le]
    rfl
  · rw [toNat_charOfInt (by omega) (by omega)]
    omega

/-- Behind the row of the step 5 comes that of the step 4 again. -/
theorem toNat_originY (h0 : 0 ≤ x) (h : x < 200 * 2 ^ 31) :
    ((originY undef x).toNat : ℤ) = 49 + if 5 < ⌊x / 200⌋ then 4 else ⌊x / 200⌋ := by
  have hnonneg := step_nonneg h0
  rw [originY, toInt_of_lt undef h0 h]
  split
  · rfl
  · rw [toNat_charOfInt (by omega) (by omega)]
    omega

theorem middle_nonneg (step : ℤ) : 0 ≤ middle step := by
  unfold middle areaSize
  split
  · rename_i h
    exact Int.cast_nonneg (by omega)
  · norm_num

/-- The middle of a square is in it. -/
theorem floor_middle {step : ℤ} (h : 0 ≤ step) : ⌊middle step / 200⌋ = step := by
  have hmiddle : middle step / 200 = step + 1 / 2 := by
    rw [middle, if_pos h, areaSize]
    push_cast
    ring
  rw [hmiddle, Int.floor_eq_iff]
  constructor
  · linarith
  · linarith

theorem middle_lt {step : ℤ} (h0 : 0 ≤ step) (h : step < 2 ^ 31) : middle step < 200 * 2 ^ 31 := by
  have hstep := (step_lt_iff (2 ^ 31)).mp ((floor_middle h0).trans_lt h)
  exact_mod_cast hstep

theorem originX_middle (h0 : 0 ≤ x) (h : x < 200 * 2 ^ 31) :
    originX undef (middle (intOfChar (originX undef x) - 65)) = originX undef x := by
  have hcode := toNat_originX undef h0 h
  have hnonneg := step_nonneg h0
  have hchar := intOfChar_of_lt (c := originX undef x) (by omega)
  obtain ⟨step, hstep⟩ : ∃ step, intOfChar (originX undef x) - 65 = step := ⟨_, rfl⟩
  have hmiddle := toNat_originX undef (middle_nonneg step)
    (middle_lt (by omega : 0 ≤ step) (by omega))
  rw [floor_middle (by omega)] at hmiddle
  rw [hstep]
  exact Char.toNat_inj.mp (by omega)

theorem originY_middle (h0 : 0 ≤ x) (h : x < 200 * 2 ^ 31) :
    originY undef (middle (intOfChar (originY undef x) - 49)) = originY undef x := by
  have hcode := toNat_originY undef h0 h
  have hnonneg := step_nonneg h0
  have hchar := intOfChar_of_lt (c := originY undef x) (by split at hcode <;> omega)
  obtain ⟨step, hstep⟩ : ∃ step, intOfChar (originY undef x) - 49 = step := ⟨_, rfl⟩
  have hrange : 0 ≤ step ∧ step ≤ 5 := by split at hcode <;> omega
  have hmiddle := toNat_originY undef (middle_nonneg step) (middle_lt hrange.1 (by omega))
  rw [floor_middle hrange.1, if_neg (by omega)] at hmiddle
  rw [hstep]
  exact Char.toNat_inj.mp (by omega)

end Steps

/-! ### The grid -/

/-- What is expected of the areas of two positions, the second of which is not to
the left of the first nor below it: their columns and rows are in that order,
positions in one square have one area, and the middle of the area is in it. -/
structure Gridded (undef : ℚ → Int32) (x₁ y₁ x₂ y₂ : ℚ) : Prop where
  column : originX undef x₁ ≤ originX undef x₂
  row : originY undef y₁ ≤ originY undef y₂
  square : ⌊x₁ / 200⌋ = ⌊x₂ / 200⌋ → ⌊y₁ / 200⌋ = ⌊y₂ / 200⌋ →
    getAreaFromPosition undef x₁ y₁ = getAreaFromPosition undef x₂ y₂
  centre : (getPositionFromArea (getAreaFromPosition undef x₁ y₁)).map
      (fun position => getAreaFromPosition undef position.x position.y) =
    some (getAreaFromPosition undef x₁ y₁)

section Gridded

variable {x₁ x₂ y₁ y₂ : ℚ}

theorem le_iff_toNat_le {c d : Char} : c ≤ d ↔ (c.toNat : ℤ) ≤ d.toNat := by
  rw [Char.le_def, UInt32.le_iff_toNat_le, Int.ofNat_le]
  rfl

theorem getPositionFromArea_getAreaFromPosition (undef : ℚ → Int32) (x y : ℚ) :
    getPositionFromArea (getAreaFromPosition undef x y) =
      some ⟨middle (intOfChar (originX undef x) - 65), middle (intOfChar (originY undef y) - 49),
        0⟩ := by
  rw [getPositionFromArea, getAreaFromPosition, String.toList_ofList]

theorem originY_le_iff (undef : ℚ → Int32) (h0 : 0 ≤ y₁) (hle : y₁ ≤ y₂) (h : y₂ < 200 * 2 ^ 31) :
    originY undef y₁ ≤ originY undef y₂ ↔ (1000 ≤ y₁ → y₁ < 1200 → y₂ < 1200) := by
  have hcode₁ := toNat_originY undef h0 (hle.trans_lt h)
  have hcode₂ := toNat_originY undef (h0.trans hle) h
  have hmono := step_mono hle
  have hfifth : ⌊y₁ / 200⌋ < 5 ↔ y₁ < 1000 := by rw [step_lt_iff]; norm_num
  have hsixth : ⌊y₁ / 200⌋ < 6 ↔ y₁ < 1200 := by rw [step_lt_iff]; norm_num
  have hsixth₂ : ⌊y₂ / 200⌋ < 6 ↔ y₂ < 1200 := by rw [step_lt_iff]; norm_num
  rw [le_iff_toNat_le, hcode₁, hcode₂, ← not_lt (a := y₁), ← hfifth, ← hsixth, ← hsixth₂]
  split <;> split <;> omega

theorem gridded_of_lt (undef : ℚ → Int32) (hx0 : 0 ≤ x₁) (hx : x₁ ≤ x₂) (hy0 : 0 ≤ y₁)
    (hy : y₁ ≤ y₂) (hx₂ : x₂ < 200 * 2 ^ 31) (hy₂ : y₂ < 200 * 2 ^ 31)
    (hrow : 1000 ≤ y₁ → y₁ < 1200 → y₂ < 1200) : Gridded undef x₁ y₁ x₂ y₂ where
  column := by
    have hmono := step_mono hx
    rw [le_iff_toNat_le, toNat_originX undef hx0 (hx.trans_lt hx₂),
      toNat_originX undef (hx0.trans hx) hx₂]
    omega
  row := (originY_le_iff undef hy0 hy hy₂).mpr hrow
  square := by
    intro hcolumn hline
    have hX : originX undef x₁ = originX undef x₂ := by
      have hcode₁ := toNat_originX undef hx0 (hx.trans_lt hx₂)
      have hcode₂ := toNat_originX undef (hx0.trans hx) hx₂
      rw [hcolumn] at hcode₁
      exact Char.toNat_inj.mp (by omega)
    have hY : originY undef y₁ = originY undef y₂ := by
      have hcode₁ := toNat_originY undef hy0 (hy.trans_lt hy₂)
      have hcode₂ := toNat_originY undef (hy0.trans hy) hy₂
      rw [hline] at hcode₁
      exact Char.toNat_inj.mp (by omega)
    rw [getAreaFromPosition, getAreaFromPosition, hX, hY]
  centre := by
    rw [getPositionFromArea_getAreaFromPosition, Option.map_some, getAreaFromPosition,
      originX_middle undef hx0 (hx.trans_lt hx₂), originY_middle undef hy0 (hy.trans_lt hy₂)]
    rfl

/-- Where the conversion is not defined it may give `-1`, which is to the left of
the grid. -/
theorem originX_minus_one {x : ℚ} (h : 200 * 2 ^ 31 ≤ x) : originX (fun _ => -1) x = '@' := by
  rw [originX, toInt_of_le _ h]
  decide

theorem originY_minus_one {y : ℚ} (h : 200 * 2 ^ 31 ≤ y) : originY (fun _ => -1) y = '0' := by
  rw [originY, toInt_of_le _ h]
  decide

theorem lt_of_gridded (hx0 : 0 ≤ x₁) (hy0 : 0 ≤ y₁) (h : Gridded (fun _ => -1) x₁ y₁ x₂ y₂) :
    x₂ < 200 * 2 ^ 31 ∧ y₂ < 200 * 2 ^ 31 := by
  have hcentre := h.centre
  rw [getPositionFromArea_getAreaFromPosition, Option.map_some, Option.some_inj,
    getAreaFromPosition, getAreaFromPosition, String.ofList_inj, List.cons.injEq,
    List.cons.injEq] at hcentre
  constructor
  · by_contra hfar
    rw [not_lt] at hfar
    have hcolumn := h.column
    rw [originX_minus_one hfar, le_iff_toNat_le] at hcolumn
    by_cases hnear : x₁ < 200 * 2 ^ 31
    · -- the first column is one of the grid, the second in front of it
      have hcode := toNat_originX (fun _ => -1) hx0 hnear
      have hnonneg := step_nonneg hx0
      have hat : (('@' : Char).toNat : ℤ) = 64 := rfl
      omega
    · -- the middle of `@` is that of `A`
      have hx := hcentre.1
      rw [originX_minus_one (not_lt.mp hnear)] at hx
      dsimp only at hx
      exact absurd hx (by decide +kernel)
  · by_contra hfar
    rw [not_lt] at hfar
    have hrow := h.row
    rw [originY_minus_one hfar, le_iff_toNat_le] at hrow
    by_cases hnear : y₁ < 200 * 2 ^ 31
    · have hcode := toNat_originY (fun _ => -1) hy0 hnear
      have hnonneg := step_nonneg hy0
      have hzero : (('0' : Char).toNat : ℤ) = 48 := rfl
      split at hcode <;> omega
    · have hy := hcentre.2.1
      rw [originY_minus_one (not_lt.mp hnear)] at hy
      dsimp only at hy
      exact absurd hy (by decide +kernel)

end Gridded

/-- **The grid**: whatever the conversion to `int` gives where it is not defined,
the areas are as expected exactly if the conversion is defined, and not the first
position is in row `6` with the second above it. -/
theorem gridded_iff {x₁ x₂ y₁ y₂ : ℚ} (hx0 : 0 ≤ x₁) (hx : x₁ ≤ x₂) (hy0 : 0 ≤ y₁) (hy : y₁ ≤ y₂) :
    (∀ undef, Gridded undef x₁ y₁ x₂ y₂) ↔
      x₂ < 200 * 2 ^ 31 ∧ y₂ < 200 * 2 ^ 31 ∧ (1000 ≤ y₁ → y₁ < 1200 → y₂ < 1200) := by
  constructor
  · intro h
    obtain ⟨hx₂, hy₂⟩ := lt_of_gridded hx0 hy0 (h fun _ => -1)
    exact ⟨hx₂, hy₂, (originY_le_iff _ hy0 hy hy₂).mp (h fun _ => -1).row⟩
  · rintro ⟨hx₂, hy₂, hrow⟩ undef
    exact gridded_of_lt undef hx0 hx hy0 hy hx₂ hy₂ hrow

theorem gridded_iff_sample : Gridded (fun _ => 0) 10 10 250 1250 :=
  (gridded_iff (by norm_num) (by norm_num) (by norm_num) (by norm_num)).mpr
    ⟨by norm_num, by norm_num, fun hy => absurd hy (by norm_num)⟩ fun _ => 0

/-- The square above `A6` is `A5`. -/
theorem row_steps_back :
    getAreaFromPosition (fun _ => 0) 0 1000 = "A6" ∧
      getAreaFromPosition (fun _ => 0) 0 1200 = "A5" ∧ ¬ Gridded (fun _ => 0) 0 1000 0 1200 :=
  ⟨by decide +kernel, by decide +kernel, fun h => absurd h.row (by decide +kernel)⟩

end ValDistancesStrategy

end ValProofs
