import ValProofs.Routing.Shortest

/-!
Prefixes with several origins. The routes to the origins are added to the FIB one by one,
in the order of the distances map. Two origins behind the same face share one next hop,
and the one that comes later has its cost written over that of the other. So the cost is
that of the nearest origin, whatever the order, only where all origins behind the face
are equally far.
-/

namespace ValProofs

open Lib List

namespace NodeFib

theorem latest_append (routes routes' : List Route) (name : Name) (faceId : ℕ) :
    latest (routes ++ routes') name faceId =
      (latest routes' name faceId).or (latest routes name faceId) := by
  rw [latest, reverse_append, find?_append, latest, latest]

theorem latest_isSome {routes : List Route} {route : Route} (h : route ∈ routes) :
    (latest routes route.name route.faceId).isSome := by
  rw [latest, find?_isSome]
  exact ⟨route, mem_reverse.mpr h, by simp⟩

end NodeFib

namespace Net

/-- The node `o` is an origin of the prefix, and the shortest path to it from node `n`
leaves through the face. -/
structure OriginVia (T : Topology) (dijkstra : ShortestPaths) (origins : List (Name × ℕ))
    (metric : FaceRef → ℕ) (name : Name) (n faceId o : ℕ) : Prop where
  origin : (name, o) ∈ origins
  other : o ≠ n
  via : (dijkstra.distances T (.setup T origins) metric n (.node o)).face = some ⟨n, faceId⟩

variable {T : Topology} {dijkstra : ShortestPaths} {origins : List (Name × ℕ)}
  {metric : FaceRef → ℕ} {name : Name} {n faceId o : ℕ}

/-- The route to an origin. -/
theorem OriginVia.mem_routesTo (h : OriginVia T dijkstra origins metric name n faceId o)
    (horigins : ∀ origin ∈ origins, origin.2 < T.numNodes) :
    ⟨name, faceId, routeCost (dijkstra.distances T (.setup T origins) metric n (.node o)).cost⟩ ∈
      routesTo (.setup T origins) n (dijkstra.distances T (.setup T origins) metric n)
        (.node o) :=
  mem_routesTo_of_face (Routers.installed_setup T horigins) (horigins _ h.origin) h.other h.origin
    h.via

section

variable (hdijkstra : dijkstra.Correct) (horigins : ∀ origin ∈ origins, origin.2 < T.numNodes)
  (hnarrow : T.Narrow metric) (hn : n < T.numNodes)

include hdijkstra horigins hnarrow hn

theorem OriginVia.distance (h : OriginVia T dijkstra origins metric name n faceId o) :
    T.Distance metric n o
      (routeCost (dijkstra.distances T (.setup T origins) metric n (.node o)).cost) := by
  obtain ⟨-, -, hcheap, hlt⟩ :=
    hdijkstra.cheapest (Routers.installed_setup T horigins) hnarrow hn h.other h.via
  rw [routeCost_of_lt hlt]
  exact hcheap.1

theorem exists_originVia {v : Vertex} {route : Route} (h : route ∈ routesTo (.setup T origins) n
      (dijkstra.distances T (.setup T origins) metric n) v) :
    ∃ o, v = .node o ∧ T.hasFace n route.faceId = true ∧
      OriginVia T dijkstra origins metric route.name n route.faceId o ∧
      T.Distance metric n o route.cost := by
  have hinst := Routers.installed_setup T horigins
  obtain ⟨o, face, rfl, hne, horigin, hface, hid, hcost⟩ := Net.mem_routesTo hinst h
  obtain ⟨hnode, hhas, -, -⟩ := hdijkstra.cheapest hinst hnarrow hn hne hface
  have hvia : OriginVia T dijkstra origins metric route.name n route.faceId o := by
    refine ⟨horigin, hne, ?_⟩
    rw [hface, hid, ← hnode]
  refine ⟨o, rfl, hid ▸ hhas, hvia, ?_⟩
  rw [hcost]
  exact hvia.distance hdijkstra horigins hnarrow hn

/-- Some order of the distances map has the origin in the end. -/
theorem OriginVia.exists_order (h : OriginVia T dijkstra origins metric name n faceId o) {c : ℕ}
    (hdistance : T.Distance metric n o c) :
    ∃ order : List Vertex, order.Perm ((Routers.setup T origins).graphVertices T) ∧
      ∃ route, NodeFib.latest (routesOf T dijkstra order (.setup T origins) metric n) name faceId =
        some route ∧ route.cost = c := by
  have hinst := Routers.installed_setup T horigins
  have hmem : Vertex.node o ∈ (Routers.setup T origins).graphVertices T :=
    node_mem_order hinst (.refl _) (horigins _ h.origin)
  refine ⟨((Routers.setup T origins).graphVertices T).erase (.node o) ++ [.node o], ?_, ?_⟩
  · exact (perm_append_singleton _ _).trans (perm_cons_erase hmem).symm
  · obtain ⟨route, hroute⟩ := Option.isSome_iff_exists.mp
      (NodeFib.latest_isSome (h.mem_routesTo horigins))
    refine ⟨route, ?_, ?_⟩
    · rw [routesOf, flatMap_append, flatMap_singleton, NodeFib.latest_append, hroute]
      rfl
    · obtain ⟨hin, -, -⟩ := NodeFib.latest_eq_some hroute
      obtain ⟨o', heq, -, -, hdistance'⟩ := exists_originVia hdijkstra horigins hnarrow hn hin
      cases heq
      exact hdistance'.unique hdistance

end

/-- The cost that the FIB has for a prefix and a face is the least one of the origins
behind the face, whatever the order of the distances map, exactly if these origins are
equally far, and the prefix is not too long. -/
theorem anycast_cost_iff {T : Topology} {dijkstra : ShortestPaths}
    (hdijkstra : dijkstra.Correct) {origins : List (Name × ℕ)}
    (horigins : ∀ origin ∈ origins, origin.2 < T.numNodes) {net : Net}
    (hmetric : ∀ n face v, (some face, v) ∈ T.links (.node n) →
      1 ≤ net.metric face ∧ net.metric face ≤ 65534)
    (name : Name) {n : ℕ} (hn : n < T.numNodes) (faceId : ℕ) :
    (∀ order : List Vertex, order.Perm ((Routers.setup T origins).graphVertices T) →
        ∀ c, IsLeast {c | ∃ o, OriginVia T dijkstra origins net.metric name n faceId o ∧
            T.Distance net.metric n o c} c →
          ∀ c', ((net.calculateRoutes T dijkstra order (.setup T origins)).fib n).Has name
            ⟨faceId, c'⟩ ↔ c' = c) ↔
      ((∃ o, OriginVia T dijkstra origins net.metric name n faceId o) →
        name.length ≤ maxDepth ∧
          ∀ o o' c c', OriginVia T dijkstra origins net.metric name n faceId o →
            OriginVia T dijkstra origins net.metric name n faceId o' →
            T.Distance net.metric n o c → T.Distance net.metric n o' c' → c = c') := by
  have hinst := Routers.installed_setup T horigins
  have hnarrow := Topology.narrow_of_le (by decide) hmetric
  have hfaces : ∀ order : List Vertex,
      ∀ route ∈ routesOf T dijkstra order (.setup T origins) net.metric n,
        T.hasFace n route.faceId = true :=
    fun order route hroute => (mem_routesOf hdijkstra hinst hnarrow hn hroute).1
  have hfib := fun order => (calculateRoutes_eq hinst dijkstra order net).2 n hn
  constructor
  · rintro hcosts ⟨o₀, hvia₀⟩
    classical
    have hex : ∃ c o, OriginVia T dijkstra origins net.metric name n faceId o ∧
        T.Distance net.metric n o c :=
      ⟨_, o₀, hvia₀, hvia₀.distance hdijkstra horigins hnarrow hn⟩
    have hleast : IsLeast {c | ∃ o, OriginVia T dijkstra origins net.metric name n faceId o ∧
        T.Distance net.metric n o c} (Nat.find hex) :=
      ⟨Nat.find_spec hex, fun c hc => Nat.find_min' hex hc⟩
    have hlength : name.length ≤ maxDepth :=
      ((hcosts _ (.refl _) _ hleast _).mpr rfl).length_le
    -- With the origin in the end, its distance is the cost.
    have hequal : ∀ o c, OriginVia T dijkstra origins net.metric name n faceId o →
        T.Distance net.metric n o c → c = Nat.find hex := by
      intro o c hvia hdistance
      obtain ⟨order, horder, route, hlatest, hcost⟩ :=
        hvia.exists_order hdijkstra horigins hnarrow hn hdistance
      refine (hcosts order horder _ hleast c).mp ?_
      rw [hfib, NodeFib.has_foldl_addNextHop (hfaces order) hlength, hlatest]
      exact hcost.symm
    refine ⟨hlength, fun o o' c c' hvia hvia' hdistance hdistance' => ?_⟩
    rw [hequal o c hvia hdistance, hequal o' c' hvia' hdistance']
  · rintro hequal order horder c ⟨⟨o, hvia, hdistance⟩, -⟩ c'
    obtain ⟨hlength, hsame⟩ := hequal ⟨o, hvia⟩
    have hcost : ∀ route ∈ routesOf T dijkstra order (.setup T origins) net.metric n,
        route.name = name → route.faceId = faceId → route.cost = c := by
      rintro route hroute rfl rfl
      obtain ⟨v, -, hmem⟩ := List.mem_flatMap.mp hroute
      obtain ⟨o', rfl, -, hvia', hdistance'⟩ :=
        exists_originVia hdijkstra horigins hnarrow hn hmem
      exact hsame o' o _ _ hvia' hvia hdistance' hdistance
    have hroute := List.mem_flatMap.mpr ⟨_,
      node_mem_order hinst horder (horigins _ hvia.origin), hvia.mem_routesTo horigins⟩
    rw [hfib, ← hcost _ hroute rfl rfl]
    refine NodeFib.has_foldl_of_mem (hfaces order) hlength hroute ?_ _ _
    intro other hother hname hface
    rw [hcost other hother hname hface, hcost _ hroute rfl rfl]

/-- With the last node of a line as the only origin, its distance is the cost. -/
theorem anycast_cost_iff_line :
    OriginVia .line weighing.dijkstra [(["p"], 2)] (fun _ => 10) ["p"] 0 256 2 ∧
    ∀ order : List Vertex, order.Perm ((Routers.setup .line [(["p"], 2)]).graphVertices .line) →
      ∀ c, IsLeast {c | ∃ o, OriginVia .line weighing.dijkstra [(["p"], 2)] (fun _ => 10) ["p"] 0
          256 o ∧ Topology.line.Distance (fun _ => 10) 0 o c} c →
        ∀ c', (((uniform 10).calculateRoutes .line weighing.dijkstra order
          (.setup .line [(["p"], 2)])).fib 0).Has ["p"] ⟨256, c'⟩ ↔ c' = c := by
  refine ⟨⟨by decide, by decide, by decide +kernel⟩, (anycast_cost_iff
    ShortestPaths.correct_dijkstra (by decide) metric_line ["p"] (by decide) 256).mpr fun _ =>
      ⟨by decide, fun o o' c c' hvia hvia' hd hd' => ?_⟩⟩
  obtain rfl : o = 2 := by simpa using hvia.origin
  obtain rfl : o' = 2 := by simpa using hvia'.origin
  exact hd.unique hd'

/-- Both other nodes of a line are origins of the prefix `/p`, behind the one face of the
first node. -/
def twoOrigins : List (Name × ℕ) := [(["p"], 1), (["p"], 2)]

/-- The cost of the nearest origin is 10, but the FIB has 20 if the farther one comes
later. -/
theorem anycast_cost_depends_on_order :
    IsLeast {c | ∃ o, OriginVia .line weighing.dijkstra twoOrigins (fun _ => 10) ["p"] 0 256 o ∧
        Topology.line.Distance (fun _ => 10) 0 o c} 10 ∧
      [.node 0, .node 2, .node 1].Perm ((Routers.setup .line twoOrigins).graphVertices .line) ∧
      [.node 0, .node 1, .node 2].Perm ((Routers.setup .line twoOrigins).graphVertices .line) ∧
      (((uniform 10).calculateRoutes .line weighing.dijkstra [.node 0, .node 2, .node 1]
        (.setup .line twoOrigins)).fib 0).entries = [⟨["p"], [⟨256, 10⟩]⟩] ∧
      (((uniform 10).calculateRoutes .line weighing.dijkstra [.node 0, .node 1, .node 2]
        (.setup .line twoOrigins)).fib 0).entries = [⟨["p"], [⟨256, 20⟩]⟩] := by
  have hdistance : ∀ o, OriginVia .line weighing.dijkstra twoOrigins (fun _ => 10) ["p"] 0 256 o →
      Topology.line.Distance (fun _ => 10) 0 o (10 * o) := by
    intro o hvia
    have hd := hvia.distance ShortestPaths.correct_dijkstra (by decide)
      (fun _ _ _ _ => (by decide : 10 < 65536)) (by decide)
    obtain rfl | rfl : o = 1 ∨ o = 2 := by simpa [twoOrigins] using hvia.origin
    · exact hd
    · exact hd
  have hnear : OriginVia .line weighing.dijkstra twoOrigins (fun _ => 10) ["p"] 0 256 1 :=
    ⟨by decide, by decide, by decide +kernel⟩
  refine ⟨⟨⟨1, hnear, hdistance 1 hnear⟩, ?_⟩, by decide +kernel, by decide +kernel,
    by decide +kernel, by decide +kernel⟩
  rintro c ⟨o, hvia, hd⟩
  rw [hd.unique (hdistance o hvia)]
  have hpos := hvia.other
  omega

end Net

end ValProofs
