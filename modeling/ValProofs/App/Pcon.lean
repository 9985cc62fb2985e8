import Mathlib.Algebra.Order.Field.Rat
import Mathlib.Algebra.Order.Ring.WithTop
import Mathlib.Tactic.Linarith
import Mathlib.Tactic.Positivity
import ValProofs.Lib.System

/-!
`ConsumerPcon`: how the window is made greater and smaller.

There are three algorithms. What they share is that the window is never made smaller than it was
at first, and that a Data without a mark is to make it greater. In BIC the window goes a part of
the way to a target, whichever side of the window the target is on. The target is set when the
window gets smaller, and in each step of the search; before that it is zero. It stays as it was
when the window is raised to its first size, or grows past the target in slow start.

The numbers are exact, and the greatest `double` is above all windows.
-/

namespace ValProofs

open Lib

/-- `CcAlgorithm`. -/
inductive CcAlgorithm
  | aimd
  | bic
  | cubic
  deriving DecidableEq

/-- The attributes of `ConsumerPcon`, with `m_initialWindow`. -/
structure PconAttributes where
  ccAlgorithm : CcAlgorithm
  beta : ℚ
  cubicBeta : ℚ
  addRttSuppress : ℚ
  useCwa : Bool
  useCubicFastConv : Bool
  initialWindow : UInt32

/-- The members that the window depends on. -/
structure Pcon where
  window : ℚ
  ssthresh : WithTop ℚ
  seq : UInt32
  highData : UInt32
  recPoint : ℚ
  cubicWmax : ℚ
  cubicLastWmax : ℚ
  bicMinWin : ℚ
  bicMaxWin : WithTop ℚ
  bicTargetWin : WithTop ℚ
  bicSsCwnd : ℚ
  bicSsTarget : ℚ
  isBicSs : Bool

namespace Pcon

/-- `BIC_LOW_WINDOW`. -/
def bicLowWindow : ℚ := 14

/-- `BIC_MAX_INCREMENT`. -/
def bicMaxIncrement : ℚ := 16

def construct (A : PconAttributes) : Pcon where
  window := A.initialWindow.toNat
  ssthresh := ⊤
  seq := 0
  highData := 0
  recPoint := 0
  cubicWmax := 0
  cubicLastWmax := 0
  bicMinWin := 0
  bicMaxWin := ⊤
  bicTargetWin := 0
  bicSsCwnd := 0
  bicSsTarget := 0
  isBicSs := false

/-- The increase of AIMD, and of BIC as long as the window is low. -/
def tcpIncrease (p : Pcon) : Pcon :=
  if (p.window : WithTop ℚ) < p.ssthresh then { p with window := p.window + 1 }
  else { p with window := p.window + 1 / p.window }

/-- The decrease of AIMD, and of BIC as long as the window is low. -/
def tcpDecrease (p : Pcon) (factor : ℚ) : Pcon :=
  { p with ssthresh := (p.window * factor : ℚ), window := p.window * factor }

/-- The window after a step of the binary search. -/
def binaryIncrease (window : ℚ) : WithTop ℚ → ℚ
  | some target =>
      if target - window < bicMaxIncrement then window + (target - window) / window
      else window + bicMaxIncrement / window
  | none => window + bicMaxIncrement / window

/-- `BicIncrease()`. -/
def bicIncrease (p : Pcon) : Pcon :=
  if p.window < bicLowWindow then p.tcpIncrease
  else if p.isBicSs = false then
    let window := binaryIncrease p.window p.bicTargetWin
    if ((window + 1 / 100000 : ℚ) : WithTop ℚ) < p.bicMaxWin then
      { p with
        window := window
        bicMinWin := window
        bicTargetWin := p.bicMaxWin.map fun max => (max + window) / 2 }
    else
      { p with
        window := window
        isBicSs := true
        bicSsCwnd := 1
        bicSsTarget := window + 1
        bicMaxWin := ⊤ }
  else
    let window := p.window + p.bicSsCwnd / p.window
    let bicSsCwnd := if p.bicSsTarget ≤ window then 2 * p.bicSsCwnd else p.bicSsCwnd
    { p with
      window := window
      bicSsCwnd := bicSsCwnd
      bicSsTarget := if p.bicSsTarget ≤ window then window + bicSsCwnd else p.bicSsTarget
      isBicSs := !decide (bicMaxIncrement ≤ bicSsCwnd) }

/-- `BicDecrease()`. -/
def bicDecrease (A : PconAttributes) (p : Pcon) : Pcon :=
  if bicLowWindow ≤ p.window then
    let window := p.window * A.cubicBeta
    let bicMaxWin :=
      if (p.window : WithTop ℚ) < p.bicMaxWin then (p.window + window) / 2 else p.window
    { p with
      window := window
      bicMinWin := window
      bicMaxWin := bicMaxWin
      bicTargetWin := ((bicMaxWin + window) / 2 : ℚ) }
  else p.tcpDecrease A.cubicBeta

/-- `CubicIncrease()`, with the target that the clock gives. -/
def cubicIncrease (p : Pcon) (cubic : ℚ) : Pcon :=
  if (p.window : WithTop ℚ) < p.ssthresh then { p with window := p.window + 1 }
  else
    let increment := max cubic 0 - p.window
    { p with window := p.window + (if increment < 0 then 0 else increment) / p.window }

/-- `CubicDecrease()`. -/
def cubicDecrease (A : PconAttributes) (p : Pcon) : Pcon :=
  let ssthresh := max (p.window * A.cubicBeta) A.initialWindow.toNat
  { p with
    cubicLastWmax := p.window
    cubicWmax :=
      if A.useCubicFastConv = true ∧ p.window < p.cubicLastWmax * (1 - 1 / 100) then
        p.window * (1 + A.cubicBeta) / 2
      else p.window
    ssthresh := (ssthresh : ℚ)
    window := ssthresh }

/-- `WindowIncrease()`. -/
def windowIncrease (A : PconAttributes) (p : Pcon) (cubic : ℚ) : Pcon :=
  match A.ccAlgorithm with
  | .aimd => p.tcpIncrease
  | .cubic => p.cubicIncrease cubic
  | .bic => p.bicIncrease

/-- The decrease of the algorithm. -/
def decreaseBy (A : PconAttributes) (p : Pcon) : Pcon :=
  match A.ccAlgorithm with
  | .aimd => p.tcpDecrease A.beta
  | .cubic => p.cubicDecrease A
  | .bic => p.bicDecrease A

/-- `WindowDecrease()`; the difference of the numbers is one of `uint32_t`. -/
def windowDecrease (A : PconAttributes) (p : Pcon) : Pcon :=
  if A.useCwa = false ∨ p.recPoint < p.highData.toNat then
    let diff : ℚ := (p.seq - p.highData).toNat
    let p := decreaseBy A { p with recPoint := p.seq.toNat + A.addRttSuppress * diff }
    if p.window < A.initialWindow.toNat then { p with window := A.initialWindow.toNat } else p
  else p

inductive Op
  /-- `WindowIncrease()`, with the target of CUBIC. -/
  | increase (cubic : ℚ)
  | decrease
  /-- `m_seq` and `m_highData` are changed by the other methods. -/
  | others (seq highData : UInt32)

def next (A : PconAttributes) (p : Pcon) : Op → Pcon
  | .increase cubic => p.windowIncrease A cubic
  | .decrease => p.windowDecrease A
  | .others seq highData => { p with seq := seq, highData := highData }

def machine (A : PconAttributes) : System Pcon Op where
  init p := p = construct A
  guard _ _ := True
  next := next A

/-- The window is not made smaller by an increase, and not smaller than at first by anything. -/
def Grows (A : PconAttributes) (p : Pcon) (op : Op) : Prop :=
  (∀ cubic, op = .increase cubic → p.window ≤ (p.next A op).window) ∧
    A.initialWindow.toNat ≤ (p.next A op).window

/-- BIC is searching, and the target is below the window. -/
def Overshoots (A : PconAttributes) (p : Pcon) : Op → Prop
  | .increase _ =>
      A.ccAlgorithm = .bic ∧ bicLowWindow ≤ p.window ∧ p.isBicSs = false ∧
        p.bicTargetWin < (p.window : WithTop ℚ)
  | _ => False

/-! ### One call -/

theorem lt_tcpIncrease {p : Pcon} (hpos : 0 < p.window) : p.window < p.tcpIncrease.window := by
  rw [tcpIncrease]
  split
  · exact lt_add_one p.window
  · exact lt_add_of_pos_right _ (by positivity)

theorem le_cubicIncrease {p : Pcon} (hpos : 0 < p.window) (cubic : ℚ) :
    p.window ≤ (p.cubicIncrease cubic).window := by
  rw [cubicIncrease]
  split
  · exact (lt_add_one p.window).le
  · refine le_add_of_nonneg_right (div_nonneg ?_ hpos.le)
    split
    · exact le_rfl
    · rename_i hnonneg
      exact not_lt.mp hnonneg

/-- A step of the search goes to the side that the target is on. -/
theorem le_binaryIncrease_iff {window : ℚ} (hpos : 0 < window) (target : WithTop ℚ) :
    window ≤ binaryIncrease window target ↔ (window : WithTop ℚ) ≤ target := by
  have hadditive : window ≤ window + bicMaxIncrement / window :=
    le_add_of_nonneg_right (div_nonneg (by decide) hpos.le)
  induction target using WithTop.recTopCoe with
  | top => exact iff_of_true hadditive le_top
  | coe target =>
    rw [WithTop.coe_le_coe]
    show window ≤ ite _ _ _ ↔ _
    split
    · rw [le_add_iff_nonneg_right, le_div_iff₀ hpos, zero_mul, sub_nonneg]
    · rename_i hfar
      refine iff_of_true hadditive ?_
      have hle : bicMaxIncrement ≤ target - window := not_lt.mp hfar
      have hmax : (0 : ℚ) ≤ bicMaxIncrement := by decide
      linarith

theorem window_bicIncrease {p : Pcon} (hhigh : bicLowWindow ≤ p.window)
    (hsearch : p.isBicSs = false) :
    p.bicIncrease.window = binaryIncrease p.window p.bicTargetWin := by
  rw [bicIncrease, if_neg (not_lt.mpr hhigh), if_pos hsearch]
  dsimp only
  split <;> rfl

/-- What holds between the calls. -/
structure Inv (A : PconAttributes) (p : Pcon) : Prop where
  initial : A.initialWindow.toNat ≤ p.window
  slowStart : p.isBicSs = true → 0 < p.bicSsCwnd

variable {A : PconAttributes} {p : Pcon}

theorem Inv.pos (h : Inv A p) (hinitial : 1 ≤ A.initialWindow) : 0 < p.window := by
  have hone : (1 : ℚ) ≤ A.initialWindow.toNat := by
    exact_mod_cast UInt32.le_iff_toNat_le.mp hinitial
  linarith [h.initial]

theorem slowStart_bicIncrease (h : Inv A p) :
    p.bicIncrease.isBicSs = true → 0 < p.bicIncrease.bicSsCwnd := by
  rw [bicIncrease]
  split
  · rw [tcpIncrease]
    split <;> exact h.slowStart
  · split
    · dsimp only
      split
      · exact h.slowStart
      · exact fun _ => one_pos
    · rename_i hslow
      intro _
      have hpos := h.slowStart (Bool.not_eq_false _ ▸ hslow)
      dsimp only
      split
      · exact mul_pos two_pos hpos
      · exact hpos

theorem slowStart_windowIncrease (h : Inv A p) (cubic : ℚ) :
    (p.windowIncrease A cubic).isBicSs = true → 0 < (p.windowIncrease A cubic).bicSsCwnd := by
  rw [windowIncrease]
  split
  · rw [tcpIncrease]
    split <;> exact h.slowStart
  · rw [cubicIncrease]
    split <;> exact h.slowStart
  · exact slowStart_bicIncrease h

/-- An increase makes the window smaller just if BIC searches for a target below it. -/
theorem le_windowIncrease_iff (h : Inv A p) (hinitial : 1 ≤ A.initialWindow) (cubic : ℚ) :
    p.window ≤ (p.windowIncrease A cubic).window ↔ ¬ p.Overshoots A (.increase cubic) := by
  have hpos := h.pos hinitial
  rw [windowIncrease]
  cases halgorithm : A.ccAlgorithm with
  | aimd => exact iff_of_true (lt_tcpIncrease hpos).le (by simp [Overshoots, halgorithm])
  | cubic => exact iff_of_true (le_cubicIncrease hpos cubic) (by simp [Overshoots, halgorithm])
  | bic =>
    simp only [Overshoots, halgorithm, true_and, not_and, not_lt]
    by_cases hhigh : bicLowWindow ≤ p.window
    · cases hslow : p.isBicSs with
      | false => simp [window_bicIncrease hhigh hslow, le_binaryIncrease_iff hpos, hhigh]
      | true =>
        refine iff_of_true ?_ (by simp)
        rw [bicIncrease, if_neg (not_lt.mpr hhigh), if_neg (by simp [hslow])]
        exact le_add_of_nonneg_right (div_nonneg (h.slowStart hslow).le hpos.le)
    · refine iff_of_true ?_ fun hle => absurd hle hhigh
      rw [bicIncrease, if_pos (not_le.mp hhigh)]
      exact (lt_tcpIncrease hpos).le

theorem slowStart_decreaseBy (h : p.isBicSs = true → 0 < p.bicSsCwnd) :
    (p.decreaseBy A).isBicSs = true → 0 < (p.decreaseBy A).bicSsCwnd := by
  rw [decreaseBy]
  split
  · exact h
  · exact h
  · rw [bicDecrease]
    split <;> exact h

theorem Inv.windowDecrease (h : Inv A p) : Inv A (p.windowDecrease A) := by
  rw [Pcon.windowDecrease]
  split
  · have hslowStart := slowStart_decreaseBy (A := A) (p := { p with
      recPoint := p.seq.toNat + A.addRttSuppress * ((p.seq - p.highData).toNat : ℚ) }) h.slowStart
    dsimp only
    split
    · exact ⟨le_rfl, hslowStart⟩
    · rename_i hge
      exact ⟨not_lt.mp hge, hslowStart⟩
  · exact h

theorem grows_iff (h : Inv A p) (hinitial : 1 ≤ A.initialWindow) (op : Op) :
    p.Grows A op ↔ ¬ p.Overshoots A op := by
  cases op with
  | increase cubic =>
    rw [← le_windowIncrease_iff h hinitial, Grows]
    constructor
    · exact fun hgrows => hgrows.1 cubic rfl
    · exact fun hle => ⟨fun _ _ => hle, h.initial.trans hle⟩
  | decrease => exact iff_of_true ⟨by rintro cubic ⟨⟩, h.windowDecrease.initial⟩ not_false
  | others seq highData => exact iff_of_true ⟨by rintro cubic ⟨⟩, h.initial⟩ not_false

theorem Inv.next (h : Inv A p) {op : Op} (hgrows : p.Grows A op) : Inv A (p.next A op) := by
  refine ⟨hgrows.2, ?_⟩
  cases op with
  | increase cubic => exact slowStart_windowIncrease h cubic
  | decrease => exact h.windowDecrease.slowStart
  | others seq highData => exact h.slowStart

/-! ### Whole runs -/

/-- Whatever is called: the window grows all along just if BIC never searches for a target that
is below the window. -/
theorem window_grows_iff (A : PconAttributes) (hinitial : 1 ≤ A.initialWindow) (ops : List Op) :
    (∀ before op after, ops = before ++ op :: after →
        (before.foldl (next A) (construct A)).Grows A op) ↔
      ∀ before op after, ops = before ++ op :: after →
        ¬ (before.foldl (next A) (construct A)).Overshoots A op := by
  have henabled : (machine A).Enabled (construct A) ops :=
    System.enabled_of_forall_guard (fun _ _ => trivial) _ _
  refine henabled.forall_step_iff (I := Inv A) (P := Grows A)
    (K := fun p op => ¬ p.Overshoots A op) ?_ ?_ ?_
  · exact ⟨le_rfl, by rintro ⟨⟩⟩
  · exact fun p op hinv _ => grows_iff hinv hinitial op
  · intro p op hinv _ hnot
    exact hinv.next ((grows_iff hinv hinitial op).mpr hnot)

/-- BIC with its default attributes, and a window of fourteen. -/
def bicFourteen : PconAttributes := ⟨.bic, 1 / 2, 4 / 5, 1 / 2, true, false, 14⟩

def aimdFourteen : PconAttributes := { bicFourteen with ccAlgorithm := .aimd }

/-- Without BIC there is no target, so the window grows also after it has been decreased. -/
theorem window_grows_iff_aimd :
    ([Op.increase 0, .decrease].foldl (next aimdFourteen) (construct aimdFourteen)).Grows
      aimdFourteen (.increase 0) := by
  refine (window_grows_iff aimdFourteen (by decide) [.increase 0, .decrease, .increase 0]).mpr ?_
    [.increase 0, .decrease] _ [] rfl
  intro before op after _ hovershoots
  cases op with
  | increase cubic => cases hovershoots.1
  | decrease | others => exact hovershoots

/-- The first Data makes the window smaller than it was at first. -/
theorem bic_window_shrinks :
    ∃ p, (machine bicFourteen).Reachable p ∧ p.window = 14 ∧
      (p.windowIncrease bicFourteen 0).window = 13 :=
  ⟨_, System.Reachable.of_init rfl, by decide +kernel, by decide +kernel⟩

end Pcon

end ValProofs
