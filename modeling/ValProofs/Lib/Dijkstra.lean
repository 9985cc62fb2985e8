import ValProofs.Lib.ShortestPaths

/-!
Dijkstra's algorithm. The vertices that have not been visited are in a queue; the
nearest of them is taken out and its edges are relaxed, until the queue is empty or
nothing in it has been reached.

The distances of visited vertices do not change any more, because no vertex in the
queue is nearer. So every edge of a visited vertex stays relaxed.
-/

namespace ValProofs.Lib.Weighing

open Function List

variable {V E W : Type} (weighing : Weighing W E)

/-- The vertex with the least distance. -/
def nearest (distance : V → W) : List V → Option V
  | [] => none
  | v :: vs =>
      match nearest distance vs with
      | none => some v
      | some u => if weighing.compare (distance v) (distance u) then some v else some u

def relax [DecidableEq V] (near : W) (distance : V → W) (edge : E × V) : V → W :=
  if weighing.compare (weighing.combine near edge.1) (distance edge.2) then
    Function.update distance edge.2 (weighing.combine near edge.1)
  else distance

def visit [DecidableEq V] (edges : V → List (E × V)) : ℕ → List V → (V → W) → V → W
  | 0, _, distance => distance
  | fuel + 1, queue, distance =>
      match weighing.nearest distance queue with
      | none => distance
      | some u =>
          if weighing.compare (distance u) weighing.inf then
            visit edges fuel (queue.filter fun v => v ≠ u)
              ((edges u).foldl (weighing.relax (distance u)) distance)
          else distance

def dijkstra [DecidableEq V] (vertices : List V) (edges : V → List (E × V)) (source : V) :
    V → W :=
  weighing.visit edges vertices.length vertices
    (Function.update (fun _ => weighing.inf) source weighing.zero)

variable {weighing} {rank : W → ℕ} {price : E → ℕ}

theorem nearest_eq_none {distance : V → W} {queue : List V}
    (h : weighing.nearest distance queue = none) : queue = [] := by
  cases queue with
  | nil => rfl
  | cons v vs =>
    rw [nearest] at h
    split at h
    · cases h
    · split at h <;> cases h

theorem Additive.nearest_eq_some (h : weighing.Additive rank price) {distance : V → W}
    {queue : List V} {u : V} (hnear : weighing.nearest distance queue = some u) :
    u ∈ queue ∧ ∀ v ∈ queue, rank (distance u) ≤ rank (distance v) := by
  induction queue generalizing u with
  | nil => cases hnear
  | cons v vs ih =>
    rw [nearest] at hnear
    split at hnear
    · rename_i hnone
      cases hnear
      rw [nearest_eq_none hnone]
      exact ⟨mem_singleton.mpr rfl, fun x hx => by rw [mem_singleton.mp hx]⟩
    · rename_i hsome
      obtain ⟨hmem, hle⟩ := ih hsome
      split at hnear
      · rename_i hlt
        cases hnear
        have hlt' := (h.compare ..).mp hlt
        refine ⟨mem_cons_self, fun x hx => ?_⟩
        rcases mem_cons.mp hx with rfl | hx
        · exact Nat.le_refl _
        · exact Nat.le_trans (Nat.le_of_lt hlt') (hle x hx)
      · rename_i hnot
        cases hnear
        have hge : rank (distance u) ≤ rank (distance v) :=
          Nat.le_of_not_lt fun hlt => hnot ((h.compare ..).mpr hlt)
        refine ⟨mem_cons_of_mem _ hmem, fun x hx => ?_⟩
        rcases mem_cons.mp hx with rfl | hx
        · exact hge
        · exact hle x hx

/-- The edges of a vertex have been relaxed: distances are replaced by better ones
only, and none is worse than what an edge gives. -/
structure Relaxed (weighing : Weighing W E) (rank : W → ℕ) (near : W) (edges : List (E × V))
    (distance distance' : V → W) : Prop where
  changed : ∀ v, distance' v = distance v ∨
    ∃ e, (e, v) ∈ edges ∧ distance' v = weighing.combine near e ∧
      rank (distance' v) < rank (distance v)
  bound : ∀ e v, (e, v) ∈ edges → rank (distance' v) ≤ rank (weighing.combine near e)

theorem Relaxed.le {near : W} {edges : List (E × V)} {distance distance' : V → W}
    (h : weighing.Relaxed rank near edges distance distance') (v : V) :
    rank (distance' v) ≤ rank (distance v) := by
  rcases h.changed v with heq | ⟨_, -, -, hlt⟩
  · rw [heq]
  · exact Nat.le_of_lt hlt

theorem Additive.relaxed_relax [DecidableEq V] (h : weighing.Additive rank price) (near : W)
    (distance : V → W) (edge : E × V) :
    weighing.Relaxed rank near [edge] distance (weighing.relax near distance edge) := by
  obtain ⟨e, v⟩ := edge
  rw [relax]
  split
  · rename_i hlt
    have hlt' := (h.compare ..).mp hlt
    refine ⟨fun x => ?_, fun e' x hmem => ?_⟩
    · by_cases hx : x = v
      · subst hx
        rw [update_self]
        exact .inr ⟨e, mem_singleton.mpr rfl, rfl, hlt'⟩
      · rw [update_of_ne hx]
        exact .inl rfl
    · cases mem_singleton.mp hmem
      rw [update_self]
  · rename_i hnot
    refine ⟨fun x => .inl rfl, fun e' x hmem => ?_⟩
    cases mem_singleton.mp hmem
    exact Nat.le_of_not_lt fun hlt => hnot ((h.compare ..).mpr hlt)

theorem Additive.relaxed_foldl [DecidableEq V] (h : weighing.Additive rank price) (near : W)
    (edges : List (E × V)) (distance : V → W) :
    weighing.Relaxed rank near edges distance
      (edges.foldl (weighing.relax near) distance) := by
  induction edges generalizing distance with
  | nil => exact ⟨fun v => .inl rfl, fun e v hmem => absurd hmem not_mem_nil⟩
  | cons edge edges ih =>
    have hfirst := h.relaxed_relax near distance edge
    have hrest := ih (weighing.relax near distance edge)
    refine ⟨fun v => ?_, fun e v hmem => ?_⟩
    · rw [foldl_cons]
      rcases hrest.changed v with heq | ⟨e, hmem, heq, hlt⟩
      · rw [heq]
        rcases hfirst.changed v with heq' | ⟨e, hmem, hrest'⟩
        · exact .inl heq'
        · exact .inr ⟨e, mem_cons.mpr (.inl (mem_singleton.mp hmem)), hrest'⟩
      · exact .inr ⟨e, mem_cons_of_mem _ hmem, heq, Nat.lt_of_lt_of_le hlt (hfirst.le v)⟩
    · rcases mem_cons.mp hmem with rfl | hmem
      · exact Nat.le_trans (hrest.le v) (hfirst.bound e v (mem_singleton.mpr rfl))
      · exact hrest.bound e v hmem

section Progress

variable (weighing) (rank) (price) (vertices : List V) (edges : V → List (E × V)) (source : V)

/-- Between two visits. -/
structure Progress (queue : List V) (distance : V → W) : Prop where
  attained : ∀ v, distance v = weighing.inf ∨
    ∃ es, Walk (fun u e v => (e, v) ∈ edges u) source es v ∧ weighing.Below es ∧
      distance v = weighing.weight es
  source : rank (distance source) = 0
  nearer : ∀ u ∈ vertices, u ∉ queue → ∀ v ∈ queue, rank (distance u) ≤ rank (distance v)
  relaxed : ∀ u ∈ vertices, u ∉ queue → ∀ e v, (e, v) ∈ edges u →
    rank (distance v) ≤ rank (distance u) + price e

end Progress

variable {vertices : List V} {edges : V → List (E × V)} {source : V} {queue : List V}
  {distance : V → W}

section

variable (hprog : weighing.Progress rank price vertices edges source queue distance)
include hprog

theorem Progress.le_inf
    (h : weighing.Additive rank price) (v : V) : rank (distance v) ≤ rank weighing.inf := by
  rcases hprog.attained v with heq | ⟨es, -, hbelow, heq⟩
  · rw [heq]
  · rw [heq, h.rank_weight hbelow]
    exact Nat.le_of_lt (h.below_iff.mp hbelow)

theorem Progress.visit [DecidableEq V] (h : weighing.Additive rank price) {u : V}
    (hnear : weighing.nearest distance queue = some u)
    (hreached : weighing.compare (distance u) weighing.inf = true) :
    weighing.Progress rank price vertices edges source (queue.filter fun v => v ≠ u)
      ((edges u).foldl (weighing.relax (distance u)) distance) := by
  obtain ⟨-, hmin⟩ := h.nearest_eq_some hnear
  have hlt := (h.compare ..).mp hreached
  have hrel := h.relaxed_foldl (distance u) (edges u) distance
  generalize (edges u).foldl (weighing.relax (distance u)) distance = distance' at hrel ⊢
  have hcombine : ∀ e, rank (weighing.combine (distance u) e) = rank (distance u) + price e :=
    fun e => h.combine _ e hlt
  -- A distance that is not larger than that of the visited vertex stays.
  have hsame : ∀ v, rank (distance v) ≤ rank (distance u) → distance' v = distance v := by
    intro v hle
    rcases hrel.changed v with heq | ⟨e, -, heq, hlt'⟩
    · exact heq
    · rw [heq, hcombine] at hlt'
      omega
  have hvisited : ∀ v ∈ vertices, v ∉ queue.filter (fun v => v ≠ u) →
      v = u ∨ (v ∉ queue ∧ distance' v = distance v) := by
    intro v hv hnot
    by_cases heq : v = u
    · exact .inl heq
    · have hnot' : v ∉ queue := fun hmem => hnot (mem_filter.mpr ⟨hmem, by simpa using heq⟩)
      exact .inr ⟨hnot', hsame v (hprog.nearer v hv hnot' u (h.nearest_eq_some hnear).1)⟩
  have hself : distance' u = distance u := hsame u (Nat.le_refl _)
  refine ⟨fun v => ?_, ?_, fun w hw hnot v hv => ?_, fun w hw hnot e v hedge => ?_⟩
  · rcases hrel.changed v with heq | ⟨e, hedge, heq, hlt'⟩
    · rw [heq]
      exact hprog.attained v
    · rcases hprog.attained u with hinf | ⟨es, hwalk, hbelow, hes⟩
      · rw [hinf] at hlt
        exact absurd hlt (Nat.lt_irrefl _)
      · refine .inr ⟨es ++ [e], hwalk.concat hedge, ?_, ?_⟩
        · refine h.below_iff.mpr ?_
          rw [heq, hcombine, hes, h.rank_weight hbelow] at hlt'
          rw [cost_append, cost_cons, cost_nil, Nat.add_zero]
          exact Nat.lt_of_lt_of_le hlt' (hprog.le_inf h v)
        · rw [weight_concat, ← hes, heq]
  · have hle := hrel.le source
    rw [hprog.source] at hle
    exact Nat.le_zero.mp hle
  · have hv' := (mem_filter.mp hv).1
    have hw' : rank (distance' w) ≤ rank (distance u) := by
      rcases hvisited w hw hnot with rfl | ⟨hnot', heq⟩
      · rw [hself]
      · rw [heq]
        exact hprog.nearer w hw hnot' u (h.nearest_eq_some hnear).1
    refine Nat.le_trans hw' ?_
    rcases hrel.changed v with heq | ⟨e, -, heq, -⟩
    · rw [heq]
      exact hmin v hv'
    · rw [heq, hcombine]
      exact Nat.le_add_right _ _
  · rcases hvisited w hw hnot with rfl | ⟨hnot', heq⟩
    · rw [hself, ← hcombine]
      exact hrel.bound e v hedge
    · rw [heq]
      exact Nat.le_trans (hrel.le v) (hprog.relaxed w hw hnot' e v hedge)

/-- Nothing that is left in the queue has been reached. -/
theorem Progress.distances (h : weighing.Additive rank price) (hsource : source ∈ vertices)
    (hclosed : ∀ u ∈ vertices, ∀ e v, (e, v) ∈ edges u → v ∈ vertices)
    (hqueue : ∀ v ∈ queue, rank weighing.inf ≤ rank (distance v)) :
    weighing.Distances (fun u e v => (e, v) ∈ edges u) source distance := by
  have hle : ∀ es v, Walk (fun u e v => (e, v) ∈ edges u) source es v →
      cost price es < rank weighing.inf → v ∈ vertices ∧ rank (distance v) ≤ cost price es := by
    intro es
    induction es using reverseRecOn with
    | nil =>
      intro v hwalk _
      cases hwalk
      exact ⟨hsource, Nat.le_of_eq hprog.source⟩
    | append_singleton es e ih =>
      intro v hwalk hlt
      obtain ⟨u, hinit, hedge⟩ := hwalk.exists_of_concat
      rw [cost_append, cost_cons, cost_nil, Nat.add_zero] at hlt ⊢
      obtain ⟨hu, hule⟩ := ih u hinit (by omega)
      have hnot : u ∉ queue := fun hmem => by
        have := hqueue u hmem
        omega
      have hrelaxed := hprog.relaxed u hu hnot e v hedge
      exact ⟨hclosed u hu e v hedge, by omega⟩
  refine ⟨hprog.attained, fun v es hwalk hbelow => ?_⟩
  rw [← Bool.not_eq_true, h.compare, h.rank_weight hbelow, Nat.not_lt]
  exact (hle es v hwalk (h.below_iff.mp hbelow)).2

theorem Progress.distances_visit [DecidableEq V] (h : weighing.Additive rank price)
    (hsource : source ∈ vertices) (hclosed : ∀ u ∈ vertices, ∀ e v, (e, v) ∈ edges u → v ∈ vertices)
    {fuel : ℕ} (hfuel : queue.length ≤ fuel) :
    weighing.Distances (fun u e v => (e, v) ∈ edges u) source
      (weighing.visit edges fuel queue distance) := by
  induction fuel generalizing queue distance with
  | zero =>
    refine hprog.distances h hsource hclosed fun v hv => ?_
    rw [length_eq_zero_iff.mp (Nat.le_zero.mp hfuel)] at hv
    cases hv
  | succ fuel ih =>
    rw [Weighing.visit]
    split
    · rename_i hnone
      refine hprog.distances h hsource hclosed fun v hv => ?_
      rw [nearest_eq_none hnone] at hv
      cases hv
    · rename_i u hsome
      obtain ⟨hmem, hmin⟩ := h.nearest_eq_some hsome
      split
      · rename_i hreached
        refine ih (hprog.visit h hsome hreached) ?_
        have hshort : (queue.filter fun v => v ≠ u).length < queue.length :=
          length_filter_lt_length_iff_exists.mpr ⟨u, hmem, by simp⟩
        omega
      · rename_i hnot
        refine hprog.distances h hsource hclosed fun v hv => ?_
        refine Nat.le_trans (Nat.le_of_not_lt fun hlt => hnot ?_) (hmin v hv)
        exact (h.compare ..).mpr hlt

end

theorem Additive.distances_dijkstra [DecidableEq V] (h : weighing.Additive rank price)
    (hsource : source ∈ vertices)
    (hclosed : ∀ u ∈ vertices, ∀ e v, (e, v) ∈ edges u → v ∈ vertices) :
    weighing.Distances (fun u e v => (e, v) ∈ edges u) source
      (weighing.dijkstra vertices edges source) := by
  refine Progress.distances_visit ⟨fun v => ?_, ?_, fun u hu hnot => ?_, fun u hu hnot => ?_⟩ h
    hsource hclosed (Nat.le_refl _)
  · by_cases hv : v = source
    · subst hv
      rw [update_self]
      exact .inr ⟨[], .nil v, h.below_iff.mpr h.pos, rfl⟩
    · rw [update_of_ne hv]
      exact .inl rfl
  · rw [update_self]
    exact h.zero
  · exact absurd hu hnot
  · exact absurd hu hnot

end ValProofs.Lib.Weighing
