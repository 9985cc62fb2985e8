import ValProofs.Routing.Routes

/-!
The routes that `CalculateRoutes` gives for the prefixes of the origins. A node gets a
route for a prefix if one of the other origins of the prefix has a path that costs less
than 65535, the infinity of the weights; the cost of the route is then that of a
cheapest path.

If the prefix has a single origin, the cheapest path from a node goes on along the
cheapest path from the next one, so the node behind the face of a route has a route that
is cheaper by the metric of the face, and packets that follow the routes get to the
origin.
-/

namespace ValProofs

open Lib

/-- A cheapest path goes on along a cheapest path of the node behind its first face. -/
theorem Topology.Cheapest.exists_distance {T : Topology} {metric : FaceRef → ℕ} {n m o : ℕ}
    {face : FaceRef} {c : ℕ} (h : T.Cheapest metric n o face c) (hT : T.TwoDevice)
    (hlink : (some face, .node m) ∈ T.links (.node n)) :
    ∃ c', T.Distance metric m o c' ∧ c = metric face + c' := by
  obtain ⟨⟨-, hleast⟩, v, path, hlink', hpath, rfl⟩ := h
  cases hT.eq_of_mem_links hlink hlink'
  refine ⟨_, ⟨⟨path, hpath, rfl⟩, ?_⟩, rfl⟩
  rintro - ⟨path', hpath', rfl⟩
  have hle : metric face + cost (linkCost metric) path ≤
      cost (linkCost metric) (some face :: path') :=
    hleast ⟨some face :: path', .cons hlink hpath', rfl⟩
  rw [cost_cons] at hle
  exact Nat.le_of_add_le_add_left hle

/-- Packets that follow the next hops for the prefix get to the node `o`, whichever next
hops they take. -/
inductive Reaches (T : Topology) (fib : ℕ → NodeFib) (name : Name) (o : ℕ) : ℕ → Prop
  | here : Reaches T fib name o o
  | hop {n : ℕ} :
      (∃ nextHop m, (fib n).Has name nextHop ∧
        (some ⟨n, nextHop.faceId⟩, .node m) ∈ T.links (.node n)) →
      (∀ nextHop m, (fib n).Has name nextHop →
        (some ⟨n, nextHop.faceId⟩, .node m) ∈ T.links (.node n) → Reaches T fib name o m) →
      Reaches T fib name o n

namespace Net

variable {T : Topology} {dijkstra : ShortestPaths} {order : List Vertex} {origins : List (Name × ℕ)}
  {routers : Routers} {metric : FaceRef → ℕ} {n : ℕ}

theorem node_mem_order (hinst : routers.Installed T origins)
    (horder : order.Perm (routers.graphVertices T)) (hn : n < T.numNodes) : .node n ∈ order :=
  horder.mem_iff.mpr (List.mem_filter.mpr ⟨Topology.node_mem_vertices.mpr hn, hinst.nodes n hn⟩)

section

variable (hdijkstra : dijkstra.Correct) (hinst : routers.Installed T origins)

include hdijkstra hinst

theorem mem_routesOf (hnarrow : T.Narrow metric) (hn : n < T.numNodes) {route : Route}
    (h : route ∈ routesOf T dijkstra order routers metric n) :
    T.hasFace n route.faceId = true ∧ ∃ o, o ≠ n ∧ (route.name, o) ∈ origins ∧
      T.Cheapest metric n o ⟨n, route.faceId⟩ route.cost ∧ route.cost < 65535 := by
  obtain ⟨v, -, hroute⟩ := List.mem_flatMap.mp h
  obtain ⟨o, face, rfl, hne, horigin, hface, hid, hcost⟩ := mem_routesTo hinst hroute
  obtain ⟨hnode, hhas, hcheap, hlt⟩ := hdijkstra.cheapest hinst hnarrow hn hne hface
  have href : (⟨n, route.faceId⟩ : FaceRef) = face := by rw [hid, ← hnode]
  rw [hcost, routeCost_of_lt hlt, href]
  exact ⟨hid ▸ hhas, o, hne, horigin, hcheap, hlt⟩

variable {name : Name} {o : ℕ}

theorem exists_mem_routesOf (hnarrow : T.Narrow metric) (hn : n < T.numNodes) (ho : o < T.numNodes)
    (horder : .node o ∈ order) (hne : o ≠ n) (horigin : (name, o) ∈ origins)
    {path : List (Option FaceRef)} (hpath : T.Path (.node n) path (.node o))
    (hlt : cost (Topology.linkCost metric) path < 65535) :
    ∃ route ∈ routesOf T dijkstra order routers metric n, route.name = name := by
  obtain ⟨face, hface⟩ := hdijkstra.exists_face hinst hnarrow hn hne hpath hlt
  exact ⟨_, List.mem_flatMap.mpr
    ⟨.node o, horder, mem_routesTo_of_face hinst ho hne horigin hface⟩, rfl⟩

variable {net : Net}

/-- A next hop after the call is that of a cheapest path, or it was there before. -/
theorem has_calculateRoutes_cases (hnarrow : T.Narrow net.metric) (hn : n < T.numNodes)
    {nextHop : Fib.NextHop}
    (h : ((net.calculateRoutes T dijkstra order routers).fib n).Has name nextHop) :
    (∃ o, o ≠ n ∧ (name, o) ∈ origins ∧
        T.Cheapest net.metric n o ⟨n, nextHop.faceId⟩ nextHop.cost ∧ nextHop.cost < 65535) ∨
      (net.fib n).Has name nextHop := by
  rw [(calculateRoutes_eq hinst dijkstra order net).2 n hn] at h
  have hfaces : ∀ route ∈ routesOf T dijkstra order routers net.metric n,
      T.hasFace n route.faceId = true :=
    fun route hroute => (mem_routesOf hdijkstra hinst hnarrow hn hroute).1
  refine (NodeFib.has_foldl_cases hfaces h).imp_left fun hroute => ?_
  exact (mem_routesOf hdijkstra hinst hnarrow hn hroute).2

variable (horder : order.Perm (routers.graphVertices T)) (hnarrow : T.Narrow net.metric)
  (hlength : name.length ≤ maxDepth) (ho : o < T.numNodes) (horigin : (name, o) ∈ origins)
  (hsingle : ∀ m, (name, m) ∈ origins → m = o)

include horder hnarrow hlength ho horigin hsingle

/-- A node gets a route for a prefix with a single origin. -/
theorem exists_has_calculateRoutes (hn : n < T.numNodes) (hne : o ≠ n) {c : ℕ}
    (hdistance : T.Distance net.metric n o c) (hlt : c < 65535) :
    ∃ nextHop, ((net.calculateRoutes T dijkstra order routers).fib n).Has name nextHop ∧
      nextHop.cost = c := by
  obtain ⟨path, hpath, hcost⟩ := hdistance.1
  obtain ⟨route, hroute, rfl⟩ := exists_mem_routesOf hdijkstra hinst hnarrow hn ho
    (node_mem_order hinst horder ho) hne horigin hpath (lt_of_eq_of_lt hcost.symm hlt)
  -- All routes for the prefix have the distance of the origin.
  have hcosts : ∀ other ∈ routesOf T dijkstra order routers net.metric n,
      other.name = route.name → other.cost = c := by
    intro other hother hname
    obtain ⟨-, o', -, horigin', hcheap, -⟩ := mem_routesOf hdijkstra hinst hnarrow hn hother
    rw [hname] at horigin'
    cases hsingle o' horigin'
    exact hcheap.1.unique hdistance
  refine ⟨⟨route.faceId, c⟩, ?_, rfl⟩
  rw [(calculateRoutes_eq hinst dijkstra order net).2 n hn]
  refine (NodeFib.has_foldl_of_mem ?_ hlength hroute ?_ _ _).mpr (hcosts route hroute rfl).symm
  · exact fun other hother => (mem_routesOf hdijkstra hinst hnarrow hn hother).1
  · intro other hother hname _
    rw [hcosts other hother hname, hcosts route hroute rfl]

/-- The node behind the face of a route is the origin, or has a route that is cheaper by
the metric of the face. -/
theorem exists_next (hT : T.TwoDevice) {m : ℕ} {face : FaceRef} {c : ℕ}
    (hcheap : T.Cheapest net.metric n o face c) (hlt : c < 65535)
    (hlink : (some face, .node m) ∈ T.links (.node n)) :
    m = o ∨ ∃ nextHop, ((net.calculateRoutes T dijkstra order routers).fib m).Has name nextHop ∧
      nextHop.cost + net.metric face = c := by
  obtain ⟨c', hdistance, rfl⟩ := hcheap.exists_distance hT hlink
  have hm := Topology.node_mem_vertices.mp (Topology.mem_vertices_of_mem_links hlink)
  by_cases hmo : m = o
  · exact .inl hmo
  · obtain ⟨nextHop, hhas, hcost⟩ := exists_has_calculateRoutes hdijkstra hinst horder hnarrow
      hlength ho horigin hsingle hm (Ne.symm hmo) hdistance (by omega)
    exact .inr ⟨nextHop, hhas, by omega⟩

end

/-- Global routing finds cheapest paths, and its routes have no loops: a route that the
call has made has the cost of a cheapest path to the origin, and the node behind its
face is the origin or has a route that is cheaper by the metric of the face. If there
were no routes for the prefix before, packets that follow the routes get to the origin. -/
theorem routes_shortest_loop_free {T : Topology} (hT : T.TwoDevice) {dijkstra : ShortestPaths}
    (hdijkstra : dijkstra.Correct) {origins : List (Name × ℕ)}
    (horigins : ∀ origin ∈ origins, origin.2 < T.numNodes) {order : List Vertex}
    (horder : order.Perm ((Routers.setup T origins).graphVertices T)) {net : Net}
    (hmetric : ∀ n face v, (some face, v) ∈ T.links (.node n) →
      1 ≤ net.metric face ∧ net.metric face ≤ 65534)
    {name : Name} {o : ℕ} (horigin : (name, o) ∈ origins)
    (hsingle : ∀ m, (name, m) ∈ origins → m = o) :
    let after := net.calculateRoutes T dijkstra order (Routers.setup T origins)
    (∀ n < T.numNodes, n ≠ o → ∀ nextHop, (after.fib n).Has name nextHop →
      ¬ (net.fib n).Has name nextHop →
      T.Distance net.metric n o nextHop.cost ∧
        (∃ m, (some ⟨n, nextHop.faceId⟩, .node m) ∈ T.links (.node n)) ∧
        ∀ m, (some ⟨n, nextHop.faceId⟩, .node m) ∈ T.links (.node n) →
          m = o ∨ ∃ nextHop', (after.fib m).Has name nextHop' ∧
            nextHop'.cost + net.metric ⟨n, nextHop.faceId⟩ = nextHop.cost) ∧
      ((∀ n nextHop, ¬ (net.fib n).Has name nextHop) →
        ∀ n < T.numNodes, n ≠ o → ∀ nextHop, (after.fib n).Has name nextHop →
          Reaches T after.fib name o n) := by
  intro after
  have hinst := Routers.installed_setup T horigins
  have ho := horigins _ horigin
  have hnarrow := Topology.narrow_of_le (by decide) hmetric
  -- What a new route is, and what is behind it.
  have hnew : ∀ n < T.numNodes, ∀ nextHop, (after.fib n).Has name nextHop →
      ¬ (net.fib n).Has name nextHop →
      T.Cheapest net.metric n o ⟨n, nextHop.faceId⟩ nextHop.cost ∧ nextHop.cost < 65535 := by
    intro n hn nextHop hhas hnot
    rcases has_calculateRoutes_cases hdijkstra hinst hnarrow hn hhas with
      ⟨o', -, horigin', hcheap⟩ | hold
    · cases hsingle o' horigin'
      exact hcheap
    · exact absurd hold hnot
  have hnext : ∀ n < T.numNodes, ∀ nextHop, (after.fib n).Has name nextHop →
      ¬ (net.fib n).Has name nextHop →
      ∀ m, (some ⟨n, nextHop.faceId⟩, .node m) ∈ T.links (.node n) →
        m = o ∨ ∃ nextHop', (after.fib m).Has name nextHop' ∧
          nextHop'.cost + net.metric ⟨n, nextHop.faceId⟩ = nextHop.cost := by
    intro n hn nextHop hhas hnot m hlink
    obtain ⟨hcheap, hlt⟩ := hnew n hn nextHop hhas hnot
    exact exists_next hdijkstra hinst horder hnarrow hhas.length_le ho horigin hsingle hT hcheap
      hlt hlink
  have hlinks : ∀ n < T.numNodes, ∀ nextHop, (after.fib n).Has name nextHop →
      ¬ (net.fib n).Has name nextHop →
      ∃ m, (some ⟨n, nextHop.faceId⟩, .node m) ∈ T.links (.node n) := by
    intro n hn nextHop hhas hnot
    obtain ⟨⟨-, v, -, hlink, -⟩, -⟩ := hnew n hn nextHop hhas hnot
    obtain ⟨-, m, -, -, rfl, -⟩ := hT.exists_node hlink
    exact ⟨m, hlink⟩
  refine ⟨fun n hn _ nextHop hhas hnot => ?_, fun hfresh => ?_⟩
  · exact ⟨(hnew n hn nextHop hhas hnot).1.1, hlinks n hn nextHop hhas hnot,
      hnext n hn nextHop hhas hnot⟩
  · -- By induction on the cost, which is the same for all next hops of a node.
    intro n hn hne nextHop hhas
    induction hc : nextHop.cost using Nat.strongRecOn generalizing n nextHop with
    | ind c ih =>
        obtain ⟨m, hlink⟩ := hlinks n hn nextHop hhas (hfresh n nextHop)
        refine .hop ⟨nextHop, m, hhas, hlink⟩ fun other m' hother hlink' => ?_
        have hsame : other.cost = nextHop.cost :=
          (hnew n hn other hother (hfresh n other)).1.1.unique
            (hnew n hn nextHop hhas (hfresh n nextHop)).1.1
        have hm' := Topology.node_mem_vertices.mp (Topology.mem_vertices_of_mem_links hlink')
        by_cases hmo : m' = o
        · exact hmo ▸ .here
        · rcases hnext n hn other hother (hfresh n other) m' hlink' with heq | ⟨next, hhas', hcost⟩
          · exact absurd heq hmo
          · have hpos := (hmetric n _ _ hlink').1
            exact ih next.cost (by omega) m' hm' hmo next hhas' rfl

/-- The routes for the prefix `/p` of the last node in a line. -/
def lineRoutes (metric : ℕ) : Net :=
  (uniform metric).calculateRoutes .line weighing.dijkstra [.node 2, .node 0, .node 1]
    (.setup .line [(["p"], 2)])

theorem has_lineRoutes : ((lineRoutes 10).fib 0).Has ["p"] ⟨256, 20⟩ :=
  ⟨⟨["p"], [⟨256, 20⟩]⟩, by decide +kernel, rfl, List.mem_singleton.mpr rfl⟩

theorem order_line : [.node 2, .node 0, .node 1].Perm
    ((Routers.setup .line [(["p"], 2)]).graphVertices .line) := by
  decide +kernel

theorem metric_line : ∀ n face v, (some face, v) ∈ Topology.line.links (.node n) →
    1 ≤ (uniform 10).metric face ∧ (uniform 10).metric face ≤ 65534 :=
  fun _ _ _ _ => (by decide : 1 ≤ 10 ∧ 10 ≤ 65534)

theorem routes_shortest_loop_free_line :
    ((lineRoutes 10).fib 0).Has ["p"] ⟨256, 20⟩ ∧
      Topology.line.Distance (fun _ => 10) 0 2 20 ∧
      (∀ m, (some ⟨0, 256⟩, .node m) ∈ Topology.line.links (.node 0) →
        m = 2 ∨ ∃ nextHop, ((lineRoutes 10).fib m).Has ["p"] nextHop ∧
          nextHop.cost + 10 = 20) ∧
      Reaches .line (lineRoutes 10).fib ["p"] 2 0 := by
  have horigin : (["p"], 2) ∈ [(["p"], 2)] := List.mem_singleton.mpr rfl
  have hclaim := routes_shortest_loop_free Topology.twoDevice_line
    ShortestPaths.correct_dijkstra (by decide) order_line metric_line horigin (by simp)
  obtain ⟨hdistance, -, hnext⟩ :=
    hclaim.1 0 (by decide) (by decide) ⟨256, 20⟩ has_lineRoutes (not_has_uniform _ _ _ _)
  exact ⟨has_lineRoutes, hdistance, hnext,
    hclaim.2 (not_has_uniform 10 · _) 0 (by decide) (by decide) _ has_lineRoutes⟩

/-- A node has a route for a prefix after the call if it had one before, or if the prefix
is not too long and another origin of it has a path that costs less than 65535. -/
theorem has_route_iff {T : Topology} {dijkstra : ShortestPaths}
    (hdijkstra : dijkstra.Correct) {origins : List (Name × ℕ)}
    (horigins : ∀ origin ∈ origins, origin.2 < T.numNodes) {order : List Vertex}
    (horder : order.Perm ((Routers.setup T origins).graphVertices T)) {net : Net}
    (hmetric : ∀ n face v, (some face, v) ∈ T.links (.node n) →
      1 ≤ net.metric face ∧ net.metric face ≤ 65534)
    (name : Name) {n : ℕ} (hn : n < T.numNodes) :
    (∃ nextHop, ((net.calculateRoutes T dijkstra order (Routers.setup T origins)).fib n).Has name
        nextHop) ↔
      (∃ nextHop, (net.fib n).Has name nextHop) ∨
        (name.length ≤ maxDepth ∧ ∃ o, (name, o) ∈ origins ∧ o ≠ n ∧
          ∃ path, T.Path (.node n) path (.node o) ∧
            cost (Topology.linkCost net.metric) path < 65535) := by
  have hinst := Routers.installed_setup T horigins
  have hnarrow := Topology.narrow_of_le (by decide) hmetric
  have hfaces : ∀ route ∈ routesOf T dijkstra order (Routers.setup T origins) net.metric n,
      T.hasFace n route.faceId = true :=
    fun route hroute => (mem_routesOf hdijkstra hinst hnarrow hn hroute).1
  constructor
  · rintro ⟨nextHop, hhas⟩
    rcases has_calculateRoutes_cases hdijkstra hinst hnarrow hn hhas with
      ⟨o, hne, horigin, hcheap, hlt⟩ | hold
    · obtain ⟨path, hpath, hcost⟩ := hcheap.1.1
      exact .inr ⟨hhas.length_le, o, horigin, hne, path, hpath, lt_of_eq_of_lt hcost.symm hlt⟩
    · exact .inl ⟨nextHop, hold⟩
  · rw [(calculateRoutes_eq hinst dijkstra order net).2 n hn]
    rintro (⟨nextHop, hold⟩ | ⟨hlength, o, horigin, hne, path, hpath, hlt⟩)
    · obtain ⟨cost, hhas⟩ := NodeFib.exists_has_foldl hfaces hold.length_le _ (.inl hold)
      exact ⟨_, hhas⟩
    · have ho := horigins _ horigin
      obtain ⟨route, hroute, rfl⟩ := exists_mem_routesOf hdijkstra hinst hnarrow hn ho
        (node_mem_order hinst horder ho) hne horigin hpath hlt
      obtain ⟨cost, hhas⟩ := NodeFib.exists_has_foldl hfaces hlength _ (.inr hroute)
      exact ⟨_, hhas⟩

/-- The first node of a line has a route, so there is a path. -/
theorem has_route_iff_line :
    ∃ path, Topology.line.Path (.node 0) path (.node 2) ∧
      cost (Topology.linkCost fun _ => 10) path < 65535 := by
  rcases (has_route_iff (T := .line) ShortestPaths.correct_dijkstra (by decide) order_line
    metric_line ["p"] (by decide)).mp ⟨_, has_lineRoutes⟩ with ⟨_, hold⟩ | ⟨-, o, ho, -, hpath⟩
  · exact absurd hold (not_has_uniform _ _ _ _)
  · obtain rfl : o = 2 := by simpa using ho
    exact hpath

/-- The last node of a line is too far away for the first when all metrics are 65534. -/
theorem far_origin_unrouted :
    Topology.line.TwoDevice ∧ Topology.line.Connected ∧
      (∀ face, 1 ≤ (uniform 65534).metric face ∧ (uniform 65534).metric face ≤ 65534) ∧
      ShortestPaths.Correct weighing.dijkstra ∧
      [.node 2, .node 0, .node 1].Perm
        ((Routers.setup .line [(["p"], 2)]).graphVertices .line) ∧
      ∀ nextHop, ¬ ((lineRoutes 65534).fib 0).Has ["p"] nextHop := by
  refine ⟨Topology.twoDevice_line, Topology.connected_line,
    fun _ => (by decide : 1 ≤ 65534 ∧ 65534 ≤ 65534), ShortestPaths.correct_dijkstra,
    by decide +kernel, ?_⟩
  rintro nextHop ⟨entry, hentry, -⟩
  have hempty : ((lineRoutes 65534).fib 0).entries = [] := by decide +kernel
  rw [hempty] at hentry
  cases hentry

end Net

end ValProofs
