import ValProofs.Routing.Shortest

/-!
`CalculateAllPossibleRoutes`. All faces of a node get the largest metric that is not
infinity, and then one face after the other gets its own metric back for a run of
Dijkstra's algorithm. Paths through the other faces are still found where they cost no
more than that metric, but they are recognized by it and left out.

So the routes of a run are those whose cheapest path leaves through the one face. Such a
path does not come back to the node, because the part of it that begins there would be
cheaper.
-/

namespace ValProofs

open Lib Function List

namespace Topology

/-- A path that leaves a node through the face, does not come back and ends at another
node, with its cost. -/
def Detour (T : Topology) (metric : FaceRef → ℕ) (n faceId o c : ℕ) : Prop :=
  o ≠ n ∧ ∃ v path, (some ⟨n, faceId⟩, v) ∈ T.links (.node n) ∧
    Walk (fun u link w => u ≠ .node n ∧ (link, w) ∈ T.links u) v path (.node o) ∧
    c = metric ⟨n, faceId⟩ + cost (linkCost metric) path

/-- A path comes to the node or is one that avoids it. -/
theorem Path.avoids_or {T : Topology} (metric : FaceRef → ℕ) (n : ℕ) {u v : Vertex}
    {path : List (Option FaceRef)} (h : T.Path u path v) :
    Walk (fun u link w => u ≠ .node n ∧ (link, w) ∈ T.links u) u path v ∨
      ∃ path', T.Path (.node n) path' v ∧
        cost (linkCost metric) path' ≤ cost (linkCost metric) path := by
  induction h with
  | nil u => exact .inl (.nil u)
  | @cons u w v link path hlink hpath ih =>
    by_cases hu : u = .node n
    · subst hu
      exact .inr ⟨link :: path, .cons hlink hpath, Nat.le_refl _⟩
    · rcases ih with hwalk | ⟨path', hpath', hle⟩
      · exact .inl (.cons ⟨hu, hlink⟩ hwalk)
      · refine .inr ⟨path', hpath', ?_⟩
        rw [cost_cons]
        omega

/-- The metrics are those of a run for one face of a node: the other faces of the node
are disabled, and all the rest is as it was. -/
structure OnlyFace (T : Topology) (metric : FaceRef → ℕ) (n faceId : ℕ)
    (metric' : FaceRef → ℕ) : Prop where
  enabled : metric' ⟨n, faceId⟩ = metric ⟨n, faceId⟩
  elsewhere : ∀ face : FaceRef, face.node ≠ n → metric' face = metric face
  disabled : ∀ id, T.hasFace n id = true → id ≠ faceId → metric' ⟨n, id⟩ = 65534

namespace OnlyFace

variable {T : Topology} {metric metric' : FaceRef → ℕ} {n faceId : ℕ}

variable (h : T.OnlyFace metric n faceId metric')
include h

/-- Away from the node nothing has changed. -/
theorem cost_eq {u v : Vertex} {path : List (Option FaceRef)}
    (hwalk : Walk (fun u link w => u ≠ .node n ∧ (link, w) ∈ T.links u) u path v) :
    cost (linkCost metric') path = cost (linkCost metric) path := by
  induction hwalk with
  | nil u => rfl
  | @cons u w v link path hstep _ ih =>
    rw [cost_cons, cost_cons, ih]
    congr 1
    cases link with
    | none => rfl
    | some face =>
      refine h.elsewhere face fun hnode => hstep.1 ?_
      cases u with
      | node m => rw [← (hasFace_of_mem_links hstep.2).1, hnode]
      | channel c =>
        obtain ⟨dev, -, heq⟩ := mem_map.mp hstep.2
        cases heq

variable {o c : ℕ}

theorem path_of_detour (hdetour : T.Detour metric n faceId o c) :
    ∃ path, T.Path (.node n) path (.node o) ∧ c = cost (linkCost metric') path := by
  obtain ⟨-, v, path, hlink, hwalk, rfl⟩ := hdetour
  refine ⟨some ⟨n, faceId⟩ :: path, .cons hlink (hwalk.imp fun _ _ _ hstep => hstep.2), ?_⟩
  rw [cost_cons, h.cost_eq hwalk, ← h.enabled]
  rfl

/-- A cheapest path of the run through the face is a cheapest detour. -/
theorem isLeast_detour (hne : o ≠ n) (hpos : 1 ≤ metric ⟨n, faceId⟩)
    (hcheap : T.Cheapest metric' n o ⟨n, faceId⟩ c) :
    IsLeast {c | T.Detour metric n faceId o c} c := by
  obtain ⟨⟨-, hleast⟩, v, path, hlink, hpath, hcost⟩ := hcheap
  refine ⟨?_, fun c' hdetour => hleast (h.path_of_detour hdetour)⟩
  rcases hpath.avoids_or metric' n with hwalk | ⟨path', hpath', hle⟩
  · refine ⟨hne, v, path, hlink, hwalk, ?_⟩
    rw [hcost, h.cost_eq hwalk, h.enabled]
  · have hback : c ≤ cost (linkCost metric') path' := hleast ⟨path', hpath', rfl⟩
    have henabled := h.enabled
    omega

/-- A cheapest path of the run that costs less than the metric of the disabled faces
leaves through the face. -/
theorem eq_of_cheapest {face : FaceRef}
    (hcheap : T.Cheapest metric' n o face c) (hlt : c < 65534) : face = ⟨n, faceId⟩ := by
  obtain ⟨-, v, path, hlink, -, hcost⟩ := hcheap
  obtain ⟨rfl, hface⟩ := hasFace_of_mem_links hlink
  by_contra hne
  have hid : face.id ≠ faceId := fun hid => hne (by rw [← hid])
  have hdisabled : metric' face = 65534 := h.disabled face.id hface hid
  omega

end OnlyFace

end Topology

namespace Net

def setMetric (net : Net) (face : FaceRef) (metric : ℕ) : Net :=
  { net with metric := Function.update net.metric face metric }

/-- `std::numeric_limits<uint16_t>::max() - 1`. -/
def disabledMetric : ℕ := 65534

/-- The routes to one entry of the distances map, without those through disabled faces. -/
def enabledRoutesTo (routers : Routers) (metric : FaceRef → ℕ) (n : ℕ)
    (distance : Vertex → Weight) (v : Vertex) : List Route :=
  match (distance v).face with
  | none => []
  | some face => if metric face = disabledMetric then [] else routesTo routers n distance v

/-- The run for one face. -/
def calculateFace (T : Topology) (dijkstra : ShortestPaths) (order : List Vertex)
    (routers : Routers) (n : ℕ) (originalMetrics : ℕ → ℕ) (net : Net) (face : NodeFace) : Net :=
  if face.transport.isNetDevice then
    let net := net.setMetric ⟨n, face.id⟩ (originalMetrics face.id)
    let distance := dijkstra.distances T routers net.metric n
    let net := net.addRoutes T n (order.flatMap (enabledRoutesTo routers net.metric n distance))
    net.setMetric ⟨n, face.id⟩ disabledMetric
  else net

/-- The runs for the faces of one node. The metrics are remembered as `uint16_t`. -/
def calculateNode (T : Topology) (dijkstra : ShortestPaths) (order : List Vertex)
    (routers : Routers) (net : Net) (n : ℕ) : Net :=
  match routers (.node n) with
  | none => net
  | some _ =>
      let originalMetrics id := net.metric ⟨n, id⟩ % 65536
      let net := (T.faces n).foldl (fun net face => net.setMetric ⟨n, face.id⟩ disabledMetric) net
      let net := (T.faces n).foldl (calculateFace T dijkstra order routers n originalMetrics) net
      (T.faces n).foldl (fun net face => net.setMetric ⟨n, face.id⟩ (originalMetrics face.id)) net

def calculateAllPossibleRoutes (T : Topology) (dijkstra : ShortestPaths) (order : List Vertex)
    (routers : Routers) (net : Net) : Net :=
  (List.range T.numNodes).foldl (calculateNode T dijkstra order routers) net

/-! ### The metrics -/

theorem foldl_setMetric (n : ℕ) (metric : ℕ → ℕ) (faces : List NodeFace) (net : Net) :
    (faces.foldl (fun net face => net.setMetric ⟨n, face.id⟩ (metric face.id)) net).fib =
        net.fib ∧
      ∀ face : FaceRef,
        (faces.foldl (fun net face => net.setMetric ⟨n, face.id⟩ (metric face.id)) net).metric
          face =
        if face.node = n ∧ faces.any (fun f => f.id = face.id) then metric face.id
        else net.metric face := by
  induction faces generalizing net with
  | nil => exact ⟨rfl, fun face => by simp⟩
  | cons f faces ih =>
    obtain ⟨hfib, hmetric⟩ := ih (net.setMetric ⟨n, f.id⟩ (metric f.id))
    rw [foldl_cons]
    refine ⟨hfib, fun face => ?_⟩
    rw [hmetric, any_cons]
    obtain ⟨node, id⟩ := face
    simp only [setMetric, update_apply, FaceRef.mk.injEq, Bool.or_eq_true, decide_eq_true_eq]
    grind

/-- The metrics while a node is looked at, between the runs. -/
def offMetric (T : Topology) (metric : FaceRef → ℕ) (n : ℕ) (face : FaceRef) : ℕ :=
  if face.node = n ∧ T.hasFace n face.id then disabledMetric else metric face

/-- The metrics in the run for a face. -/
def runMetric (T : Topology) (metric : FaceRef → ℕ) (n faceId : ℕ) : FaceRef → ℕ :=
  Function.update (offMetric T metric n) ⟨n, faceId⟩ (metric ⟨n, faceId⟩ % 65536)

/-- The routes of the run for a face. -/
def faceRoutes (T : Topology) (dijkstra : ShortestPaths) (order : List Vertex)
    (routers : Routers) (metric : FaceRef → ℕ) (n : ℕ) (face : NodeFace) : List Route :=
  if face.transport.isNetDevice then
    order.flatMap (enabledRoutesTo routers (runMetric T metric n face.id) n
      (dijkstra.distances T routers (runMetric T metric n face.id) n))
  else []

variable {T : Topology} {dijkstra : ShortestPaths} {order : List Vertex} {origins : List (Name × ℕ)}
  {routers : Routers} {metric : FaceRef → ℕ} {n : ℕ} {net : Net}

theorem foldl_calculateFace {faces : List NodeFace}
    (hfaces : ∀ face ∈ faces, T.hasFace n face.id = true)
    (hmetric : net.metric = offMetric T metric n) :
    faces.foldl (calculateFace T dijkstra order routers n fun id => metric ⟨n, id⟩ % 65536) net =
      net.addRoutes T n (faces.flatMap (faceRoutes T dijkstra order routers metric n)) := by
  induction faces generalizing net with
  | nil => simp [addRoutes]
  | cons face faces ih =>
    have hoff : offMetric T metric n ⟨n, face.id⟩ = disabledMetric :=
      if_pos ⟨rfl, hfaces face mem_cons_self⟩
    -- The face is disabled again after the run.
    have hstep : calculateFace T dijkstra order routers n (fun id => metric ⟨n, id⟩ % 65536) net
        face = net.addRoutes T n (faceRoutes T dijkstra order routers metric n face) := by
      rw [calculateFace, faceRoutes]
      split
      · simp only [setMetric, addRoutes, hmetric, update_idem]
        rw [← hoff, update_eq_self]
        rfl
      · simp [addRoutes]
    have hrest := ih (fun f hf => hfaces f (mem_cons_of_mem _ hf))
      (show (net.addRoutes T n (faceRoutes T dijkstra order routers metric n face)).metric = _
        from hmetric)
    rw [foldl_cons, hstep, hrest, flatMap_cons]
    simp only [addRoutes, update_self, update_idem, foldl_append]

/-- A node gets the routes of its faces, and all metrics are as before. -/
theorem calculateNode_eq (hinst : routers.Installed T origins) (hn : n < T.numNodes)
    (hsmall : ∀ face ∈ T.faces n, net.metric ⟨n, face.id⟩ < 65536) :
    net.calculateNode T dijkstra order routers n =
      net.addRoutes T n
        ((T.faces n).flatMap (faceRoutes T dijkstra order routers net.metric n)) := by
  obtain ⟨gr, hgr⟩ := Option.isSome_iff_exists.mp (hinst.nodes n hn)
  rw [calculateNode, hgr]
  dsimp only
  obtain ⟨hfib, hmetric⟩ := foldl_setMetric n (fun _ => disabledMetric) (T.faces n) net
  have hoff : ((T.faces n).foldl (fun net face => net.setMetric ⟨n, face.id⟩ disabledMetric)
      net).metric = offMetric T net.metric n := funext hmetric
  have hfaces : ∀ face ∈ T.faces n, T.hasFace n face.id = true :=
    fun face hface => any_eq_true.mpr ⟨face, hface, by simp⟩
  rw [foldl_calculateFace hfaces hoff]
  generalize (T.faces n).flatMap (faceRoutes T dijkstra order routers net.metric n) = routes
  obtain ⟨hfib', hmetric'⟩ := foldl_setMetric n (fun id => net.metric ⟨n, id⟩ % 65536) (T.faces n)
    (((T.faces n).foldl (fun net face => net.setMetric ⟨n, face.id⟩ disabledMetric) net).addRoutes
      T n routes)
  have hrestored : ∀ face : FaceRef, (if face.node = n ∧ (T.faces n).any (fun f => f.id = face.id)
      then net.metric ⟨n, face.id⟩ % 65536 else offMetric T net.metric n face) =
      net.metric face := by
    intro face
    split
    · rename_i hface
      obtain ⟨rfl, hany⟩ := hface
      obtain ⟨f, hf, hid⟩ := any_eq_true.mp hany
      have hid' : f.id = face.id := by simpa using hid
      exact Nat.mod_eq_of_lt (hid' ▸ hsmall f hf)
    · rename_i hnot
      exact if_neg hnot
  refine Net.ext (funext fun face => ?_) ?_
  · rw [hmetric' face, addRoutes, hoff]
    exact hrestored face
  · rw [hfib', addRoutes, hfib]
    rfl

theorem calculateAllPossibleRoutes_eq (hinst : routers.Installed T origins)
    (dijkstra : ShortestPaths) (order : List Vertex)
    (hsmall : ∀ n, ∀ face ∈ T.faces n, net.metric ⟨n, face.id⟩ < 65536) :
    (net.calculateAllPossibleRoutes T dijkstra order routers).metric = net.metric ∧
      ∀ n < T.numNodes, (net.calculateAllPossibleRoutes T dijkstra order routers).fib n =
        ((T.faces n).flatMap (faceRoutes T dijkstra order routers net.metric n)).foldl
          (NodeFib.addNextHop T n) (net.fib n) := by
  have hstep : ∀ n < T.numNodes, ∀ net' : Net, net'.metric = net.metric →
      net'.calculateNode T dijkstra order routers n = net'.addRoutes T n
        ((T.faces n).flatMap (faceRoutes T dijkstra order routers net.metric n)) := by
    intro n hn net' hmetric
    rw [← hmetric]
    exact calculateNode_eq hinst hn (hmetric ▸ hsmall n)
  obtain ⟨hmetric, hfib⟩ := foldl_addRoutes hstep
  exact ⟨hmetric, fun n hn => (hfib n).trans (if_pos hn)⟩

/-! ### The routes of a run -/

theorem onlyFace_runMetric {faceId : ℕ} (hsmall : metric ⟨n, faceId⟩ < 65536) :
    T.OnlyFace metric n faceId (runMetric T metric n faceId) where
  enabled := by rw [runMetric, update_self, Nat.mod_eq_of_lt hsmall]
  elsewhere face hnode := by
    rw [runMetric, update_of_ne, offMetric, if_neg fun h => hnode h.1]
    rintro rfl
    exact hnode rfl
  disabled id hface hne := by
    rw [runMetric, update_of_ne, offMetric, if_pos ⟨rfl, hface⟩]
    · rfl
    · intro heq
      exact hne (congrArg FaceRef.id heq)

theorem narrow_runMetric (hnarrow : T.Narrow metric) (n faceId : ℕ) :
    T.Narrow (runMetric T metric n faceId) := by
  intro m face v hlink
  rw [runMetric, update_apply]
  split
  · exact Nat.mod_lt _ (by decide)
  · rw [offMetric]
    split
    · decide
    · exact hnarrow m face v hlink

/-- A route of a run is a cheapest detour through the face. -/
theorem mem_faceRoutes (hdijkstra : dijkstra.Correct) (hinst : routers.Installed T origins)
    (hmetric : ∀ n face v, (some face, v) ∈ T.links (.node n) →
      1 ≤ metric face ∧ metric face ≤ 65533)
    (hsmall : ∀ n, ∀ face ∈ T.faces n, metric ⟨n, face.id⟩ < 65536) (hn : n < T.numNodes)
    {face : NodeFace} (hface : face ∈ T.faces n) {route : Route}
    (h : route ∈ faceRoutes T dijkstra order routers metric n face) :
    T.hasFace n route.faceId = true ∧ ∃ o, (route.name, o) ∈ origins ∧
      IsLeast {c | T.Detour metric n route.faceId o c} route.cost := by
  have honly := onlyFace_runMetric (T := T) (hsmall n face hface)
  have hnarrow : T.Narrow (runMetric T metric n face.id) :=
    narrow_runMetric (Topology.narrow_of_le (by decide) hmetric) n face.id
  rw [faceRoutes] at h
  split at h
  · obtain ⟨v, -, hroute⟩ := mem_flatMap.mp h
    rw [enabledRoutesTo] at hroute
    split at hroute
    · cases hroute
    · rename_i f hf
      split at hroute
      · cases hroute
      · rename_i henabled
        obtain ⟨o, f', rfl, hne, horigin, hf', hid, hcost⟩ := mem_routesTo hinst hroute
        cases hf.symm.trans hf'
        obtain ⟨hnode, hhas, hcheap, hlt⟩ := hdijkstra.cheapest hinst hnarrow hn hne hf
        -- The face is the one that is not disabled.
        have heq : f = ⟨n, face.id⟩ := by
          obtain ⟨node, id⟩ := f
          cases hnode
          by_contra hother
          exact henabled (honly.disabled id hhas fun hsame => hother (by rw [hsame]))
        subst heq
        obtain ⟨v, -, hlink, -⟩ := hcheap.2
        rw [hcost, routeCost_of_lt hlt, hid]
        exact ⟨hhas, o, horigin, honly.isLeast_detour hne (hmetric n _ v hlink).1 hcheap⟩
  · cases h

/-- A cheapest detour that costs less than the metric of the disabled faces gives a
route. -/
theorem exists_mem_faceRoutes (hdijkstra : dijkstra.Correct) (hinst : routers.Installed T origins)
    (horder : order.Perm (routers.graphVertices T))
    (hmetric : ∀ n face v, (some face, v) ∈ T.links (.node n) →
      1 ≤ metric face ∧ metric face ≤ 65533) (hn : n < T.numNodes) {name : Name} {o : ℕ}
    (ho : o < T.numNodes) (horigin : (name, o) ∈ origins) {faceId c : ℕ}
    (hleast : IsLeast {c | T.Detour metric n faceId o c} c) (hlt : c < 65534) :
    ⟨name, faceId, c⟩ ∈ (T.faces n).flatMap (faceRoutes T dijkstra order routers metric n) := by
  obtain ⟨hne, v, -, hlink, -⟩ := hleast.1
  obtain ⟨hpos, hle⟩ := hmetric n _ v hlink
  obtain ⟨face, hface, heq, hmem⟩ := Topology.exists_face_of_mem_links hlink
  cases heq
  obtain ⟨-, nd, -, htransport, -⟩ := Topology.mem_faceLinks hmem
  have honly : T.OnlyFace metric n face.id (runMetric T metric n face.id) :=
    onlyFace_runMetric (by omega)
  have hnarrow : T.Narrow (runMetric T metric n face.id) :=
    narrow_runMetric (Topology.narrow_of_le (by decide) hmetric) n face.id
  obtain ⟨path, hpath, hcost⟩ := honly.path_of_detour hleast.1
  obtain ⟨f, hf⟩ := hdijkstra.exists_face hinst hnarrow hn hne hpath (by omega)
  obtain ⟨-, -, hcheap, hlt'⟩ := hdijkstra.cheapest hinst hnarrow hn hne hf
  have hcheaper := hcheap.1.2 ⟨path, hpath, hcost⟩
  cases honly.eq_of_cheapest hcheap (Nat.lt_of_le_of_lt hcheaper hlt)
  have hsame := (honly.isLeast_detour hne hpos hcheap).unique hleast
  refine mem_flatMap.mpr ⟨face, hface, ?_⟩
  rw [faceRoutes, if_pos (by rw [htransport]; rfl)]
  refine mem_flatMap.mpr ⟨.node o, node_mem_order hinst horder ho, ?_⟩
  have henabled : runMetric T metric n face.id ⟨n, face.id⟩ ≠ disabledMetric := by
    rw [honly.enabled, disabledMetric]
    omega
  rw [enabledRoutesTo, hf]
  dsimp only
  rw [if_neg henabled, ← hsame, ← routeCost_of_lt hlt']
  exact mem_routesTo_of_face hinst ho hne horigin hf

/-- The routes of `CalculateAllPossibleRoutes` are exact for each face: a face has the
next hop with the cost of a cheapest path that leaves through it and does not come
back, if this is less than 65534 and the prefix is not too long, and none if there is
no such path. All metrics are as they were. -/
theorem all_routes_exact {T : Topology} {dijkstra : ShortestPaths}
    (hdijkstra : dijkstra.Correct) {origins : List (Name × ℕ)}
    (horigins : ∀ origin ∈ origins, origin.2 < T.numNodes) {order : List Vertex}
    (horder : order.Perm ((Routers.setup T origins).graphVertices T)) {net : Net}
    (hmetric : ∀ n face v, (some face, v) ∈ T.links (.node n) →
      1 ≤ net.metric face ∧ net.metric face ≤ 65533)
    (hsmall : ∀ n, ∀ face ∈ T.faces n, net.metric ⟨n, face.id⟩ < 65536)
    {name : Name} {o : ℕ} (horigin : (name, o) ∈ origins)
    (hsingle : ∀ m, (name, m) ∈ origins → m = o)
    (hfresh : ∀ n nextHop, ¬ (net.fib n).Has name nextHop) :
    let after := net.calculateAllPossibleRoutes T dijkstra order (.setup T origins)
    (∀ n < T.numNodes, ∀ faceId,
      (name.length ≤ maxDepth → ∀ c, IsLeast {c | T.Detour net.metric n faceId o c} c →
        c < 65534 → ∀ c', (after.fib n).Has name ⟨faceId, c'⟩ ↔ c' = c) ∧
      ((∀ c, ¬ T.Detour net.metric n faceId o c) → ∀ c, ¬ (after.fib n).Has name ⟨faceId, c⟩)) ∧
      after.metric = net.metric := by
  intro after
  have hinst := Routers.installed_setup T horigins
  obtain ⟨hmetrics, hfib⟩ := calculateAllPossibleRoutes_eq hinst dijkstra order hsmall
  have hroutes : ∀ n < T.numNodes, ∀ route ∈ (T.faces n).flatMap
      (faceRoutes T dijkstra order (.setup T origins) net.metric n),
      T.hasFace n route.faceId = true ∧ (route.name = name →
        IsLeast {c | T.Detour net.metric n route.faceId o c} route.cost) := by
    intro n hn route hroute
    obtain ⟨face, hface, hmem⟩ := List.mem_flatMap.mp hroute
    obtain ⟨hhas, o', horigin', hleast⟩ :=
      mem_faceRoutes hdijkstra hinst hmetric hsmall hn hface hmem
    refine ⟨hhas, fun hname => ?_⟩
    cases hsingle o' (hname ▸ horigin')
    exact hleast
  refine ⟨fun n hn faceId => ⟨fun hlength c hleast hlt c' => ?_, fun hnone c hhas => ?_⟩, hmetrics⟩
  · have hroute := exists_mem_faceRoutes hdijkstra hinst horder hmetric hn (horigins _ horigin)
      horigin hleast hlt
    rw [hfib n hn]
    refine NodeFib.has_foldl_of_mem (fun r hr => (hroutes n hn r hr).1) hlength hroute ?_ _ _
    rintro other hother hname rfl
    exact ((hroutes n hn other hother).2 hname).unique hleast
  · rw [hfib n hn] at hhas
    rcases NodeFib.has_foldl_cases (fun r hr => (hroutes n hn r hr).1) hhas with hroute | hold
    · exact hnone c ((hroutes n hn _ hroute).2 rfl).1
    · exact hfresh n _ hold

/-- In a line with metrics 10, the paths from the first node to the last one cost 20. -/
theorem isLeast_detour_line : IsLeast {c | Topology.line.Detour (fun _ => 10) 0 256 2 c} 20 := by
  have hlink : (some ⟨0, 256⟩, .node 1) ∈ Topology.line.links (.node 0) := by decide
  refine ⟨⟨by decide, .node 1, [some ⟨1, 258⟩], hlink, .cons ⟨by decide, by decide⟩ (.nil _), rfl⟩,
    ?_⟩
  rintro c ⟨-, v, path, hfirst, hwalk, rfl⟩
  cases Topology.twoDevice_line.eq_of_mem_links hlink hfirst
  -- The node behind the face is not yet the last one.
  cases hwalk with
  | cons hstep _ =>
    obtain ⟨face, -, rfl, -⟩ := Topology.exists_face_of_mem_links hstep.2
    rw [cost_cons]
    simp only [Topology.linkCost]
    omega

/-- All routes for a prefix of the last node in a line with metrics 10. -/
def lineAllRoutes (name : Name) : Net :=
  (uniform 10).calculateAllPossibleRoutes .line weighing.dijkstra [.node 2, .node 0, .node 1]
    (.setup .line [(name, 2)])

theorem all_routes_exact_line :
    ((lineAllRoutes ["p"]).fib 0).Has ["p"] ⟨256, 20⟩ ∧
      (∀ c, ¬ ((lineAllRoutes ["p"]).fib 2).Has ["p"] ⟨259, c⟩) ∧
      (lineAllRoutes ["p"]).metric = (uniform 10).metric := by
  have hmetric : ∀ n face v, (some face, v) ∈ Topology.line.links (.node n) →
      1 ≤ (uniform 10).metric face ∧ (uniform 10).metric face ≤ 65533 :=
    fun _ _ _ _ => (by decide : 1 ≤ 10 ∧ 10 ≤ 65533)
  have horigin : (["p"], 2) ∈ [(["p"], 2)] := List.mem_singleton.mpr rfl
  obtain ⟨hroutes, hmetrics⟩ := all_routes_exact ShortestPaths.correct_dijkstra (by decide)
    order_line hmetric (fun _ _ _ => (by decide : 10 < 65536)) horigin (by simp)
    (fun n nextHop => not_has_uniform 10 n _ nextHop)
  refine ⟨?_, ?_, hmetrics⟩
  · exact ((hroutes 0 (by decide) 256).1 (by decide) 20 isLeast_detour_line (by decide) 20).mpr rfl
  · exact (hroutes 2 (by decide) 259).2 fun c hdetour => hdetour.1 rfl

/-- A prefix of 33 components is refused. -/
theorem long_prefix_unrouted :
    Topology.line.TwoDevice ∧ IsLeast {c | Topology.line.Detour (fun _ => 10) 0 256 2 c} 20 ∧
      ShortestPaths.Correct weighing.dijkstra ∧
      [.node 2, .node 0, .node 1].Perm
        ((Routers.setup .line [(List.replicate 33 "p", 2)]).graphVertices .line) ∧
      ((lineAllRoutes (List.replicate 33 "p")).fib 0).entries = [] :=
  ⟨Topology.twoDevice_line, isLeast_detour_line, ShortestPaths.correct_dijkstra,
    by decide +kernel, by decide +kernel⟩

end Net

end ValProofs
