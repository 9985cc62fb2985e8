import ValProofs.Lib.Dijkstra
import ValProofs.Routing.GlobalRouter

/-!
The weights with which global routing calls Dijkstra's algorithm. A weight has a cost
of 32 bits and the first face of the path; the metrics that are added to it are cut to
16 bits, and the infinity it is compared with is the largest number of 16 bits. The
delay that weights also have is always zero.

The algorithm is not part of the repository. What is used of it is that the distances
it returns are those of the weights.
-/

namespace ValProofs

open Lib List

structure EdgeWeight where
  face : Option FaceRef
  cost : UInt16
  deriving DecidableEq, Repr

structure Weight where
  face : Option FaceRef
  cost : UInt32
  deriving DecidableEq, Repr

def weightZero : Weight := ⟨none, 0⟩

/-- `std::numeric_limits<uint16_t>::max()`. -/
def weightInf : Weight := ⟨none, 65535⟩

def weightCompare (a b : Weight) : Bool := a.cost < b.cost

def weightCombine (a : Weight) (b : EdgeWeight) : Weight :=
  match a.face with
  | none => ⟨b.face, a.cost + b.cost.toUInt32⟩
  | some face => ⟨some face, a.cost + b.cost.toUInt32⟩

def weighing : Weighing Weight EdgeWeight :=
  ⟨weightZero, weightInf, weightCompare, weightCombine⟩

/-- `get(EdgeWeights, edge)`. -/
def edgeWeight (metric : FaceRef → ℕ) : Option FaceRef → EdgeWeight
  | none => ⟨none, 0⟩
  | some face => ⟨some face, (metric face).toUInt16⟩

theorem additive_weighing :
    weighing.Additive (fun weight => weight.cost.toNat) fun edge => edge.cost.toNat where
  compare a b := by
    simp [weighing, weightCompare, UInt32.lt_iff_toNat_lt]
  zero := rfl
  combine a e hlt := by
    have hlt' : a.cost.toNat < 65535 := hlt
    have hcost : (weightCombine a e).cost = a.cost + e.cost.toUInt32 := by
      rw [weightCombine]
      split <;> rfl
    have hsmall := e.cost.toNat_lt
    show (weightCombine a e).cost.toNat = _
    rw [hcost, UInt32.toNat_add, UInt16.toNat_toUInt32, Nat.mod_eq_of_lt (by omega)]
  pos := by decide

/-- The first face stays. -/
theorem face_foldl_weightCombine {a : Weight} {face : FaceRef} (h : a.face = some face)
    (es : List EdgeWeight) : (es.foldl weightCombine a).face = some face := by
  induction es generalizing a with
  | nil => exact h
  | cons e es ih =>
    refine ih ?_
    rw [weightCombine, h]

namespace Topology

/-- The metrics of the faces that have links have 16 bits. -/
def Narrow (T : Topology) (metric : FaceRef → ℕ) : Prop :=
  ∀ n face v, (some face, v) ∈ T.links (.node n) → metric face < 65536

variable {T : Topology}

theorem narrow_of_le {metric : FaceRef → ℕ} {bound : ℕ} (hbound : bound < 65536)
    (h : ∀ n face v, (some face, v) ∈ T.links (.node n) →
      1 ≤ metric face ∧ metric face ≤ bound) : T.Narrow metric :=
  fun n face v hlink => Nat.lt_of_le_of_lt (h n face v hlink).2 hbound

theorem Narrow.cost_eq {metric : FaceRef → ℕ} (h : T.Narrow metric) {u v : Vertex}
    {path : List (Option FaceRef)} (hpath : T.Path u path v) :
    cost (fun edge => edge.cost.toNat) (path.map (edgeWeight metric)) =
      cost (linkCost metric) path := by
  induction hpath with
  | nil u => rfl
  | @cons u v w link path hlink _ ih =>
    rw [map_cons, cost_cons, cost_cons, ih]
    congr 1
    cases link with
    | none => rfl
    | some face =>
      cases u with
      | node n =>
        have hlt := h n face v hlink
        simp only [edgeWeight, linkCost]
        exact UInt16.toNat_ofNat_of_lt' hlt
      | channel c =>
        obtain ⟨dev, -, heq⟩ := mem_map.mp hlink
        cases heq

end Topology

/-! ### The graph -/

namespace Routers

def graphVertices (T : Topology) (routers : Routers) : List Vertex :=
  T.vertices.filter fun v => (routers v).isSome

def outEdges (routers : Routers) (metric : FaceRef → ℕ) (v : Vertex) :
    List (EdgeWeight × Vertex) :=
  match routers v with
  | none => []
  | some gr => gr.incidencies.map fun link => (edgeWeight metric link.1, link.2)

variable {T : Topology} {origins : List (Name × ℕ)} {routers : Routers} {u v : Vertex}

theorem Installed.mem_outEdges (h : Installed T origins routers) (metric : FaceRef → ℕ)
    {e : EdgeWeight} (hu : (routers u).isSome) :
    (e, v) ∈ outEdges routers metric u ↔
      ∃ link, (link, v) ∈ T.links u ∧ e = edgeWeight metric link := by
  obtain ⟨gr, hgr⟩ := Option.isSome_iff_exists.mp hu
  rw [outEdges, hgr]
  simp only [h.incidencies u gr hgr, mem_map, Prod.exists, Prod.mk.injEq]
  constructor
  · rintro ⟨link, v', hmem, rfl, rfl⟩
    exact ⟨link, hmem, rfl⟩
  · rintro ⟨link, hmem, rfl⟩
    exact ⟨link, v, hmem, rfl, rfl⟩

theorem Installed.isSome_of_mem_links (h : Installed T origins routers) {link : Option FaceRef}
    (hu : (routers u).isSome) (hlink : (link, v) ∈ T.links u) : (routers v).isSome := by
  obtain ⟨gr, hgr⟩ := Option.isSome_iff_exists.mp hu
  exact h.closed u gr hgr (link, v) hlink

/-- The walks of the graph are the paths of the topology. -/
theorem Installed.walk_iff (h : Installed T origins routers) (metric : FaceRef → ℕ)
    {es : List EdgeWeight} (hu : (routers u).isSome) :
    Walk (fun u e v => (e, v) ∈ outEdges routers metric u) u es v ↔
      ∃ path, T.Path u path v ∧ es = path.map (edgeWeight metric) := by
  constructor
  · intro hwalk
    induction hwalk with
    | nil u => exact ⟨[], .nil u, rfl⟩
    | cons hstep _ ih =>
      obtain ⟨link, hlink, rfl⟩ := (h.mem_outEdges metric hu).mp hstep
      obtain ⟨path, hpath, rfl⟩ := ih (h.isSome_of_mem_links hu hlink)
      exact ⟨link :: path, .cons hlink hpath, rfl⟩
  · rintro ⟨path, hpath, rfl⟩
    induction hpath with
    | nil u => exact .nil u
    | cons hlink _ ih =>
      exact .cons ((h.mem_outEdges metric hu).mpr ⟨_, hlink, rfl⟩)
        (ih (h.isSome_of_mem_links hu hlink))

end Routers

/-- `boost::dijkstra_shortest_paths` with the functors above, for a list of vertices,
their edges and a source. -/
abbrev ShortestPaths :=
  List Vertex → (Vertex → List (EdgeWeight × Vertex)) → Vertex → Vertex → Weight

namespace ShortestPaths

/-- The distances are right in every graph. -/
def Correct (dijkstra : ShortestPaths) : Prop :=
  ∀ vertices edges source, source ∈ vertices →
    (∀ u ∈ vertices, ∀ e v, (e, v) ∈ edges u → v ∈ vertices) →
    weighing.Distances (fun u e v => (e, v) ∈ edges u) source (dijkstra vertices edges source)

theorem correct_dijkstra : Correct weighing.dijkstra :=
  fun _ _ _ hsource hclosed => additive_weighing.distances_dijkstra hsource hclosed

/-- The distances map of one source. -/
def distances (dijkstra : ShortestPaths) (T : Topology) (routers : Routers)
    (metric : FaceRef → ℕ) (n : ℕ) : Vertex → Weight :=
  dijkstra (routers.graphVertices T) (routers.outEdges metric) (.node n)

variable {dijkstra : ShortestPaths} {T : Topology} {origins : List (Name × ℕ)} {routers : Routers}
  {metric : FaceRef → ℕ} {n : ℕ}

theorem Correct.distances (h : dijkstra.Correct) (hinst : routers.Installed T origins)
    (metric : FaceRef → ℕ) (hn : n < T.numNodes) :
    weighing.Distances (fun u e v => (e, v) ∈ routers.outEdges metric u) (.node n)
      (dijkstra.distances T routers metric n) := by
  refine h _ _ _ ?_ fun u hu e v hedge => ?_
  · exact mem_filter.mpr ⟨Topology.node_mem_vertices.mpr hn, hinst.nodes n hn⟩
  · have hsome : (routers u).isSome := (mem_filter.mp hu).2
    obtain ⟨link, hlink, -⟩ := (hinst.mem_outEdges metric hsome).mp hedge
    exact mem_filter.mpr ⟨Topology.mem_vertices_of_mem_links hlink,
      hinst.isSome_of_mem_links hsome hlink⟩

/-- What the distances map has for another vertex: nothing if all paths cost 65535 or
more, and else the first face and the cost of a cheapest path. -/
theorem Correct.distances_cases (h : dijkstra.Correct) (hinst : routers.Installed T origins)
    (hnarrow : T.Narrow metric) (hn : n < T.numNodes) {v : Vertex} (hv : v ≠ .node n) :
    ((dijkstra.distances T routers metric n v).face = none ∧
        ∀ path, T.Path (.node n) path v → 65535 ≤ cost (Topology.linkCost metric) path) ∨
      ∃ face w path, (some face, w) ∈ T.links (.node n) ∧ T.Path w path v ∧
        (dijkstra.distances T routers metric n v).face = some face ∧
        (dijkstra.distances T routers metric n v).cost.toNat =
          metric face + cost (Topology.linkCost metric) path ∧
        (dijkstra.distances T routers metric n v).cost.toNat < 65535 ∧
        ∀ path', T.Path (.node n) path' v →
          (dijkstra.distances T routers metric n v).cost.toNat ≤
            cost (Topology.linkCost metric) path' := by
  have hsome := hinst.nodes n hn
  have hdist := h.distances hinst metric hn
  generalize dijkstra.distances T routers metric n = distance at hdist
  rcases additive_weighing.distance_cases hdist v with
    ⟨hinf, hfar⟩ | ⟨es, hwalk, heq, hrank, hlt, hleast⟩
  · refine .inl ⟨by rw [hinf]; rfl, fun path hpath => ?_⟩
    rw [← hnarrow.cost_eq hpath]
    exact hfar _ ((hinst.walk_iff metric hsome).mpr ⟨path, hpath, rfl⟩)
  · obtain ⟨path, hpath, rfl⟩ := (hinst.walk_iff metric hsome).mp hwalk
    have hcost := hnarrow.cost_eq hpath
    cases hpath with
    | nil => exact absurd rfl hv
    | @cons _ w _ link path hlink hrest =>
      obtain ⟨face, -, rfl, -⟩ := Topology.exists_face_of_mem_links hlink
      refine .inr ⟨_, w, path, hlink, hrest, ?_, ?_, ?_, fun path' hpath' => ?_⟩
      · rw [heq, map_cons, Weighing.weight, foldl_cons]
        exact face_foldl_weightCombine rfl _
      · rw [hrank, hcost, cost_cons]
        rfl
      · rw [hrank]
        exact hlt
      · rw [hrank, ← hnarrow.cost_eq hpath']
        exact hleast _ ((hinst.walk_iff metric hsome).mpr ⟨path', hpath', rfl⟩)

/-- A face in the distances map is the first one of a cheapest path. -/
theorem Correct.cheapest (h : dijkstra.Correct) (hinst : routers.Installed T origins)
    (hnarrow : T.Narrow metric) (hn : n < T.numNodes) {o : ℕ} (hne : o ≠ n) {face : FaceRef}
    (hface : (dijkstra.distances T routers metric n (.node o)).face = some face) :
    face.node = n ∧ T.hasFace n face.id = true ∧
      T.Cheapest metric n o face (dijkstra.distances T routers metric n (.node o)).cost.toNat ∧
      (dijkstra.distances T routers metric n (.node o)).cost.toNat < 65535 := by
  have hvertex : Vertex.node o ≠ .node n := fun heq => hne (Vertex.node.inj heq)
  rcases h.distances_cases hinst hnarrow hn hvertex with
    ⟨hnone, -⟩ | ⟨face', v, path, hlink, hpath, hface', hcost, hlt, hleast⟩
  · rw [hnone] at hface
    cases hface
  · cases hface.symm.trans hface'
    obtain ⟨hnode, hhas⟩ := Topology.hasFace_of_mem_links hlink
    refine ⟨hnode, hhas, ⟨⟨⟨some face :: path, .cons hlink hpath, ?_⟩, ?_⟩, v, path, hlink, hpath,
      hcost⟩, hlt⟩
    · rw [hcost, cost_cons]
      rfl
    · rintro - ⟨path', hpath', rfl⟩
      exact hleast path' hpath'

/-- A node is reached if there is a path that costs less than 65535. -/
theorem Correct.exists_face (h : dijkstra.Correct) (hinst : routers.Installed T origins)
    (hnarrow : T.Narrow metric) (hn : n < T.numNodes) {o : ℕ} (hne : o ≠ n)
    {path : List (Option FaceRef)} (hpath : T.Path (.node n) path (.node o))
    (hlt : cost (Topology.linkCost metric) path < 65535) :
    ∃ face, (dijkstra.distances T routers metric n (.node o)).face = some face := by
  have hvertex : Vertex.node o ≠ .node n := fun heq => hne (Vertex.node.inj heq)
  rcases h.distances_cases hinst hnarrow hn hvertex with
    ⟨-, hfar⟩ | ⟨face, _, _, -, -, hface, -, -, -⟩
  · have := hfar path hpath
    omega
  · exact ⟨face, hface⟩

end ShortestPaths

end ValProofs
