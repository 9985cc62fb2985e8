import ValProofs.Nfd.Fib
import ValProofs.Routing.Weights

/-!
`CalculateRoutes`. For each node the distances map is gone through, and each prefix of a
router that has been reached is given to the FIB manager of the node, as a route through
the first face of the path. The map is ordered by the addresses of the routers, so the
order of the routes is any order.

The FIB manager refuses prefixes that are too long, and a route replaces the one that the
prefix has for the same face.
-/

namespace ValProofs

open Lib List Fib

/-- `FIB_MAX_DEPTH`. -/
def maxDepth : ℕ := 32

/-- The FIB of a node. -/
structure NodeFib where
  entries : List Fib.Entry
  /-- `Fib::insert` is given no prefix with more components. -/
  shallow : ∀ entry ∈ entries, entry.name.length ≤ maxDepth

/-- The parameters of a call of `FibHelper::AddRoute` on a node. -/
structure Route where
  name : Name
  faceId : ℕ
  cost : ℕ
  deriving DecidableEq, Repr

namespace NodeFib

/-- The FIB has the next hop for the prefix. -/
def Has (fib : NodeFib) (name : Name) (nextHop : Fib.NextHop) : Prop :=
  Fib.HasNextHop fib.entries name nextHop

variable {name : Name}

theorem Has.length_le {fib : NodeFib} {nextHop : NextHop} (h : fib.Has name nextHop) :
    name.length ≤ maxDepth := by
  obtain ⟨entry, hentry, rfl, -⟩ := h
  exact fib.shallow entry hentry

theorem shallow_addRoute (fib : NodeFib) (hname : ¬ maxDepth < name.length) (faceId cost : ℕ) :
    ∀ entry ∈ addRoute fib.entries name faceId cost, entry.name.length ≤ maxDepth := by
  intro entry hentry
  rcases mem_addRoute.mp hentry with ⟨hold, -⟩ | ⟨old, -, hold, rfl⟩
  · exact fib.shallow entry hold
  · exact le_of_eq_of_le (congrArg length hold) (Nat.le_of_not_lt hname)

/-- `FibManager::addNextHop`. -/
def addNextHop (T : Topology) (n : ℕ) (fib : NodeFib) (route : Route) : NodeFib :=
  if h : maxDepth < route.name.length then fib
  else if T.hasFace n route.faceId then
    ⟨Fib.addRoute fib.entries route.name route.faceId route.cost, fib.shallow_addRoute h _ _⟩
  else fib

variable {T : Topology} {n : ℕ} {route : Route}

theorem has_addNextHop (hlength : route.name.length ≤ maxDepth)
    (hface : T.hasFace n route.faceId = true) (fib : NodeFib) (name : Name) (nextHop : NextHop) :
    (fib.addNextHop T n route).Has name nextHop ↔
      (name = route.name ∧ nextHop = ⟨route.faceId, route.cost⟩) ∨
        (fib.Has name nextHop ∧ ¬ (name = route.name ∧ nextHop.faceId = route.faceId)) := by
  rw [addNextHop, dif_neg (Nat.not_lt.mpr hlength), if_pos hface]
  exact hasNextHop_addRoute ..

theorem has_addNextHop_of_ne (hname : route.name ≠ name) (fib : NodeFib) (nextHop : NextHop) :
    (fib.addNextHop T n route).Has name nextHop ↔ fib.Has name nextHop := by
  rw [addNextHop]
  split
  · exact Iff.rfl
  · split
    · refine (hasNextHop_addRoute ..).trans ?_
      constructor
      · rintro (⟨heq, -⟩ | ⟨hold, -⟩)
        · exact absurd heq.symm hname
        · exact hold
      · exact fun hold => .inr ⟨hold, fun heq => hname heq.1.symm⟩
    · exact Iff.rfl

/-- The last of the routes for a prefix and a face. -/
def latest (routes : List Route) (name : Name) (faceId : ℕ) : Option Route :=
  routes.reverse.find? fun route => route.name = name ∧ route.faceId = faceId

variable {routes : List Route} {faceId : ℕ}

theorem latest_eq_some (h : latest routes name faceId = some route) :
    route ∈ routes ∧ route.name = name ∧ route.faceId = faceId :=
  ⟨mem_reverse.mp (mem_of_find?_eq_some h), by simpa using find?_some h⟩

theorem latest_eq_none (h : latest routes name faceId = none) :
    ∀ route ∈ routes, ¬ (route.name = name ∧ route.faceId = faceId) := by
  intro route hmem
  simpa using find?_eq_none.mp h route (mem_reverse.mpr hmem)

section

variable (hfaces : ∀ route ∈ routes, T.hasFace n route.faceId = true)

include hfaces

/-- After a list of routes, the FIB has the cost of the last one for the face. -/
theorem has_foldl_addNextHop (hlength : name.length ≤ maxDepth) (fib : NodeFib)
    (faceId cost : ℕ) :
    (routes.foldl (addNextHop T n) fib).Has name ⟨faceId, cost⟩ ↔
      match latest routes name faceId with
      | some route => cost = route.cost
      | none => fib.Has name ⟨faceId, cost⟩ := by
  induction routes using reverseRecOn with
  | nil => rfl
  | append_singleton routes route ih =>
    have ih' := ih fun r hr => hfaces r (mem_append_left _ hr)
    have hface := hfaces route (by simp)
    rw [foldl_append, foldl_cons, foldl_nil, latest, reverse_append,
      reverse_singleton, singleton_append, find?_cons]
    by_cases hname : route.name = name
    · have hroute := has_addNextHop (hname ▸ hlength) hface (routes.foldl (addNextHop T n) fib)
        name ⟨faceId, cost⟩
      by_cases hfaceId : route.faceId = faceId
      · simp only [hname, hfaceId, and_self, decide_true]
        rw [hroute]
        simp [hname, hfaceId]
      · simp only [hfaceId, and_false, decide_false]
        rw [hroute, ← latest, ← ih']
        simp [Ne.symm hfaceId]
    · simp only [hname, false_and, decide_false]
      rw [has_addNextHop_of_ne hname, ← latest, ← ih']

/-- A next hop is that of a route, or it was there before and has not been replaced. -/
theorem has_foldl_cases {fib : NodeFib} {nextHop : NextHop}
    (h : (routes.foldl (addNextHop T n) fib).Has name nextHop) :
    ⟨name, nextHop.faceId, nextHop.cost⟩ ∈ routes ∨ fib.Has name nextHop := by
  have hcases := (has_foldl_addNextHop hfaces h.length_le fib nextHop.faceId nextHop.cost).mp h
  cases hlatest : latest routes name nextHop.faceId with
  | none =>
    rw [hlatest] at hcases
    exact .inr hcases
  | some route =>
    rw [hlatest] at hcases
    obtain ⟨hmem, rfl, hface⟩ := latest_eq_some hlatest
    refine .inl ?_
    rw [← hface, show nextHop.cost = route.cost from hcases]
    exact hmem

/-- A face that had a next hop, or gets a route, has a next hop after the routes. -/
theorem exists_has_foldl (hlength : name.length ≤ maxDepth) (fib : NodeFib) {cost : ℕ}
    (h : fib.Has name ⟨faceId, cost⟩ ∨ ⟨name, faceId, cost⟩ ∈ routes) :
    ∃ cost', (routes.foldl (addNextHop T n) fib).Has name ⟨faceId, cost'⟩ := by
  simp only [has_foldl_addNextHop hfaces hlength]
  cases hlatest : latest routes name faceId with
  | none => exact ⟨cost, h.resolve_right fun hmem => latest_eq_none hlatest _ hmem ⟨rfl, rfl⟩⟩
  | some route => exact ⟨route.cost, rfl⟩

/-- Where all routes for a prefix and a face have the same cost, the order does not
matter. -/
theorem has_foldl_of_mem (hlength : route.name.length ≤ maxDepth) (hmem : route ∈ routes)
    (hsame : ∀ other ∈ routes, other.name = route.name → other.faceId = route.faceId →
      other.cost = route.cost) (fib : NodeFib) (cost : ℕ) :
    (routes.foldl (addNextHop T n) fib).Has route.name ⟨route.faceId, cost⟩ ↔
      cost = route.cost := by
  rw [has_foldl_addNextHop hfaces hlength]
  cases hlatest : latest routes route.name route.faceId with
  | none => exact absurd ⟨rfl, rfl⟩ (latest_eq_none hlatest route hmem)
  | some other =>
    obtain ⟨hother, hname, hface⟩ := latest_eq_some hlatest
    dsimp only
    rw [hsame other hother hname hface]

end

end NodeFib

/-- The metrics of the faces and the FIBs of the nodes. -/
@[ext] structure Net where
  metric : FaceRef → ℕ
  fib : ℕ → NodeFib

namespace Net

/-- All metrics are the same, and there are no routes. -/
def uniform (metric : ℕ) : Net := ⟨fun _ => metric, fun _ => ⟨[], List.forall_mem_nil _⟩⟩

theorem not_has_uniform (metric n : ℕ) (name : Name) (nextHop : NextHop) :
    ¬ ((uniform metric).fib n).Has name nextHop := by
  rintro ⟨entry, hentry, -⟩
  cases hentry

/-- The cost goes through an `int32_t` on its way into the command. -/
def routeCost (cost : UInt32) : ℕ :=
  if cost.toNat < 2 ^ 31 then cost.toNat else 2 ^ 64 - 2 ^ 32 + cost.toNat

theorem routeCost_of_lt {cost : UInt32} (h : cost.toNat < 65535) : routeCost cost = cost.toNat :=
  if_pos (Nat.lt_trans h (by decide))

/-- The routes to one entry of the distances map. -/
def routesTo (routers : Routers) (n : ℕ) (distance : Vertex → Weight) (v : Vertex) :
    List Route :=
  if v = .node n then []
  else
    match (distance v).face, routers v with
    | some face, some gr =>
        gr.localPrefixes.map fun name => ⟨name, face.id, routeCost (distance v).cost⟩
    | _, _ => []

def addRoutes (T : Topology) (n : ℕ) (net : Net) (routes : List Route) : Net :=
  { net with fib := Function.update net.fib n (routes.foldl (NodeFib.addNextHop T n) (net.fib n)) }

/-- The routes that a node gets, if the distances map is gone through in the order of the
list. -/
def routesOf (T : Topology) (dijkstra : ShortestPaths) (order : List Vertex) (routers : Routers)
    (metric : FaceRef → ℕ) (n : ℕ) : List Route :=
  order.flatMap (routesTo routers n (dijkstra.distances T routers metric n))

/-- The body of the loop over the nodes. -/
def calculateRoutesFrom (T : Topology) (dijkstra : ShortestPaths) (order : List Vertex)
    (routers : Routers) (net : Net) (n : ℕ) : Net :=
  match routers (.node n) with
  | none => net
  | some _ => net.addRoutes T n (routesOf T dijkstra order routers net.metric n)

def calculateRoutes (T : Topology) (dijkstra : ShortestPaths) (order : List Vertex)
    (routers : Routers) (net : Net) : Net :=
  (List.range T.numNodes).foldl (calculateRoutesFrom T dijkstra order routers) net

variable {T : Topology} {dijkstra : ShortestPaths} {order : List Vertex}
  {origins : List (Name × ℕ)} {routers : Routers}

/-- A loop over the nodes in which each node gets its routes. -/
theorem foldl_addRoutes {step : Net → ℕ → Net} {routes : ℕ → List Route} {net : Net} {k : ℕ}
    (hstep : ∀ n < k, ∀ net' : Net, net'.metric = net.metric →
      step net' n = net'.addRoutes T n (routes n)) :
    ((range k).foldl step net).metric = net.metric ∧
      ∀ n, ((range k).foldl step net).fib n =
        if n < k then (routes n).foldl (NodeFib.addNextHop T n) (net.fib n) else net.fib n := by
  induction k with
  | zero => exact ⟨rfl, fun n => rfl⟩
  | succ k ih =>
    obtain ⟨hmetric, hfib⟩ := ih fun n hn => hstep n (Nat.lt_succ_of_lt hn)
    rw [range_succ, foldl_append, foldl_cons, foldl_nil,
      hstep k (Nat.lt_succ_self k) _ hmetric, addRoutes]
    refine ⟨hmetric, fun n => ?_⟩
    dsimp only
    by_cases hnk : n = k
    · subst hnk
      rw [Function.update_self, hfib, if_neg (Nat.lt_irrefl _), if_pos (Nat.lt_succ_self _)]
    · rw [Function.update_of_ne hnk, hfib]
      refine if_congr ?_ rfl rfl
      omega

theorem calculateRoutes_eq (hinst : routers.Installed T origins) (dijkstra : ShortestPaths)
    (order : List Vertex) (net : Net) :
    (net.calculateRoutes T dijkstra order routers).metric = net.metric ∧
      ∀ n < T.numNodes, (net.calculateRoutes T dijkstra order routers).fib n =
        (routesOf T dijkstra order routers net.metric n).foldl (NodeFib.addNextHop T n)
          (net.fib n) := by
  have hstep : ∀ n < T.numNodes, ∀ net' : Net, net'.metric = net.metric →
      net'.calculateRoutesFrom T dijkstra order routers n =
        net'.addRoutes T n (routesOf T dijkstra order routers net.metric n) := by
    intro n hn net' hmetric
    obtain ⟨gr, hgr⟩ := Option.isSome_iff_exists.mp (hinst.nodes n hn)
    rw [calculateRoutesFrom, hgr, hmetric]
  obtain ⟨hmetric, hfib⟩ := foldl_addRoutes hstep
  exact ⟨hmetric, fun n hn => (hfib n).trans (if_pos hn)⟩

theorem mem_routesTo (hinst : routers.Installed T origins) {n : ℕ} {distance : Vertex → Weight}
    {v : Vertex} {route : Route} (h : route ∈ routesTo routers n distance v) :
    ∃ o face, v = .node o ∧ o ≠ n ∧ (route.name, o) ∈ origins ∧
      (distance (.node o)).face = some face ∧ route.faceId = face.id ∧
      route.cost = routeCost (distance (.node o)).cost := by
  rw [routesTo] at h
  split at h
  · cases h
  · rename_i hne
    split at h
    · rename_i face gr hface hgr
      obtain ⟨name, hname, rfl⟩ := mem_map.mp h
      obtain ⟨o, rfl, horigin⟩ := (hinst.prefixes v gr hgr name).mp hname
      exact ⟨o, face, rfl, fun heq => hne (congrArg _ heq), horigin, hface, rfl, rfl⟩
    · cases h

theorem mem_routesTo_of_face (hinst : routers.Installed T origins) {n o : ℕ}
    {distance : Vertex → Weight} {face : FaceRef} {name : Name} (ho : o < T.numNodes) (hne : o ≠ n)
    (horigin : (name, o) ∈ origins) (hface : (distance (.node o)).face = some face) :
    ⟨name, face.id, routeCost (distance (.node o)).cost⟩ ∈
      routesTo routers n distance (.node o) := by
  obtain ⟨gr, hgr⟩ := Option.isSome_iff_exists.mp (hinst.nodes o ho)
  have hvertex : Vertex.node o ≠ .node n := fun heq => hne (Vertex.node.inj heq)
  rw [routesTo, if_neg hvertex, hface, hgr]
  exact mem_map.mpr ⟨name, (hinst.prefixes _ gr hgr name).mpr ⟨o, rfl, horigin⟩, rfl⟩

end Net

end ValProofs
