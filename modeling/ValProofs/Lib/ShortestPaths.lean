import Mathlib.Algebra.Order.BigOperators.Group.List
import Mathlib.Algebra.Order.Ring.Nat
import Mathlib.Data.List.Induction
import Mathlib.Order.Bounds.Basic
import Mathlib.Tactic.Common

/-!
Shortest paths from one source, for weights of which the algorithm knows only how
they are compared and how an edge is added to them. A vertex that is not reached
keeps a weight `inf` that stands for infinity, so that a path counts only as long as
its weight stays below it.

Where the weights are compared by a number that adds up along the path, the distances
are those of the sums, cut off at the number of `inf`.
-/

namespace ValProofs.Lib

open List

variable {V E W : Type}

/-! ### Walks -/

/-- A walk, with the edges it takes. -/
inductive Walk (step : V → E → V → Prop) : V → List E → V → Prop
  | nil (u : V) : Walk step u [] u
  | cons {u v w : V} {e : E} {es : List E} :
      step u e v → Walk step v es w → Walk step u (e :: es) w

namespace Walk

variable {step : V → E → V → Prop} {u v w : V} {es : List E}

theorem append {es' : List E} (h : Walk step u es v) (h' : Walk step v es' w) :
    Walk step u (es ++ es') w := by
  induction h with
  | nil u => exact h'
  | cons hstep _ ih => exact .cons hstep (ih h')

theorem concat {e : E} (h : Walk step u es v) (hstep : step v e w) : Walk step u (es ++ [e]) w :=
  h.append (.cons hstep (.nil w))

/-- A walk is cut at any place. -/
theorem split {es' : List E} (h : Walk step u (es ++ es') w) :
    ∃ v, Walk step u es v ∧ Walk step v es' w := by
  induction es generalizing u with
  | nil => exact ⟨u, .nil u, h⟩
  | cons e es ih =>
    cases h with
    | cons hstep hrest =>
      obtain ⟨v, hfirst, hsecond⟩ := ih hrest
      exact ⟨v, .cons hstep hfirst, hsecond⟩

/-- The last edge of a walk. -/
theorem exists_of_concat {e : E} (h : Walk step u (es ++ [e]) w) :
    ∃ v, Walk step u es v ∧ step v e w := by
  obtain ⟨v, hfirst, hlast⟩ := h.split
  cases hlast with
  | cons hstep hnil =>
    cases hnil with
    | nil => exact ⟨v, hfirst, hstep⟩

/-- A walk of one graph is a walk of another one that has its steps, where they are taken. -/
theorem imp {step' : V → E → V → Prop} (h : Walk step u es v)
    (himp : ∀ a e b, step a e b → step' a e b) : Walk step' u es v := by
  induction h with
  | nil u => exact .nil u
  | cons hstep _ ih => exact .cons (himp _ _ _ hstep) ih

end Walk

/-! ### Weights -/

/-- What a shortest-path algorithm is told about the weights. -/
structure Weighing (W E : Type) where
  zero : W
  inf : W
  compare : W → W → Bool
  combine : W → E → W

namespace Weighing

variable (weighing : Weighing W E)

def weight (es : List E) : W := es.foldl weighing.combine weighing.zero

theorem weight_concat (es : List E) (e : E) :
    weighing.weight (es ++ [e]) = weighing.combine (weighing.weight es) e :=
  foldl_concat ..

/-- The weight is below `inf` all along the walk. -/
def Below (es : List E) : Prop :=
  ∀ es', es' <+: es → weighing.compare (weighing.weight es') weighing.inf = true

/-- The distances from a source: each is the weight of a walk that no other walk
beats, or `inf` where there is none. Only walks that stay below `inf` count. -/
structure Distances (step : V → E → V → Prop) (source : V) (distance : V → W) : Prop where
  attained : ∀ v, distance v = weighing.inf ∨
    ∃ es, Walk step source es v ∧ weighing.Below es ∧ distance v = weighing.weight es
  least : ∀ v es, Walk step source es v → weighing.Below es →
    weighing.compare (weighing.weight es) (distance v) = false

/-- Weights are compared by a number, and an edge adds its price to a number that is
below that of `inf`. -/
structure Additive (rank : W → ℕ) (price : E → ℕ) : Prop where
  compare : ∀ a b, weighing.compare a b = true ↔ rank a < rank b
  zero : rank weighing.zero = 0
  combine : ∀ a e, rank a < rank weighing.inf → rank (weighing.combine a e) = rank a + price e
  pos : 0 < rank weighing.inf

end Weighing

/-- The sum of the prices along a walk. -/
def cost (price : E → ℕ) (es : List E) : ℕ := (es.map price).sum

@[simp] theorem cost_nil (price : E → ℕ) : cost price [] = 0 := rfl

@[simp] theorem cost_cons (price : E → ℕ) (e : E) (es : List E) :
    cost price (e :: es) = price e + cost price es := by
  rw [cost, map_cons, sum_cons, cost]

@[simp] theorem cost_append (price : E → ℕ) (es es' : List E) :
    cost price (es ++ es') = cost price es + cost price es' := by
  rw [cost, map_append, sum_append, cost, cost]

namespace Weighing

variable {weighing : Weighing W E} {rank : W → ℕ} {price : E → ℕ}

namespace Additive

theorem rank_weight (h : weighing.Additive rank price) {es : List E} (hbelow : weighing.Below es) :
    rank (weighing.weight es) = cost price es := by
  induction es using reverseRecOn with
  | nil => exact h.zero
  | append_singleton es e ih =>
    have hinit : weighing.Below es := fun es' hes' =>
      hbelow es' (hes'.trans (prefix_append es [e]))
    have hlt := (h.compare ..).mp (hinit es (prefix_refl es))
    rw [weight_concat, h.combine _ _ hlt, ih hinit, cost_append, cost_cons, cost_nil, Nat.add_zero]

theorem below_iff (h : weighing.Additive rank price) {es : List E} :
    weighing.Below es ↔ cost price es < rank weighing.inf := by
  constructor
  · intro hbelow
    rw [← h.rank_weight hbelow]
    exact (h.compare ..).mp (hbelow es (prefix_refl es))
  · induction es using reverseRecOn with
    | nil =>
      intro _ es' hes'
      rw [prefix_nil.mp hes']
      exact (h.compare ..).mpr (lt_of_eq_of_lt h.zero h.pos)
    | append_singleton es e ih =>
      intro hlt es' hes'
      rw [cost_append] at hlt
      have hbelow := ih (by omega)
      rcases prefix_concat_iff.mp hes' with rfl | hes'
      · refine (h.compare ..).mpr ?_
        have hinit := (h.compare ..).mp (hbelow es (prefix_refl es))
        rw [weight_concat, h.combine _ _ hinit, h.rank_weight hbelow]
        simpa using hlt
      · exact hbelow es' hes'

/-- What the distances are in numbers. -/
theorem distance_cases (h : weighing.Additive rank price) {step : V → E → V → Prop} {source : V}
    {distance : V → W} (hdist : weighing.Distances step source distance) (v : V) :
    (distance v = weighing.inf ∧
        ∀ es, Walk step source es v → rank weighing.inf ≤ cost price es) ∨
      ∃ es, Walk step source es v ∧ distance v = weighing.weight es ∧
        rank (distance v) = cost price es ∧ cost price es < rank weighing.inf ∧
        ∀ es', Walk step source es' v → cost price es ≤ cost price es' := by
  have hleast : ∀ es, Walk step source es v → cost price es < rank weighing.inf →
      rank (distance v) ≤ cost price es := by
    intro es hwalk hlt
    have hbelow := h.below_iff.mpr hlt
    have hnot := hdist.least v es hwalk hbelow
    rw [← h.rank_weight hbelow]
    exact Nat.le_of_not_lt fun hlt' => Bool.noConfusion (hnot.symm.trans ((h.compare ..).mpr hlt'))
  rcases hdist.attained v with hinf | ⟨es, hwalk, hbelow, heq⟩
  · refine .inl ⟨hinf, fun es hwalk => Nat.le_of_not_lt fun hlt => ?_⟩
    have hle := hleast es hwalk hlt
    rw [hinf] at hle
    omega
  · have hrank : rank (distance v) = cost price es := by rw [heq, h.rank_weight hbelow]
    have hlt := h.below_iff.mp hbelow
    refine .inr ⟨es, hwalk, heq, hrank, hlt, fun es' hwalk' => ?_⟩
    by_cases hlt' : cost price es' < rank weighing.inf
    · exact hrank ▸ hleast es' hwalk' hlt'
    · omega

end Additive

end Weighing

end ValProofs.Lib
