import ValProofs.Lib.Connectivity
import ValProofs.Lib.Scan
import ValProofs.Utils.Topology.RocketfuelMap

/-!
`RocketfuelMapReader::Read`: the topology of the graph of a map.

Only the biggest component is kept. Nodes of small degree become clients, nodes next to them
gateways, and the others backbone routers. The backbone is connected by extra links, links of the
wrong type are removed, and again only the biggest component is kept. Of the backbone either
everything is in that component, or nothing is.
-/

namespace ValProofs

open Lib SimpleGraph RocketfuelMap List Function

namespace MapGraph

/-- Nodes are not repeated, and edges join nodes. -/
structure WellFormed (g : MapGraph) : Prop where
  nodup : g.nodes.Nodup
  mem_nodes : ∀ e ∈ g.edges, ∀ v ∈ e, v ∈ g.nodes

/-- The graph on all names. -/
def adjacency (g : MapGraph) : SimpleGraph (List Char) := fromEdgeSet {e | e ∈ g.edges}

/-- `adjacent_vertices`. -/
def adjacent (g : MapGraph) (v : List Char) : List (List Char) :=
  g.nodes.filter fun u => g.edges.contains s(v, u)

/-- `out_degree`. -/
def degree (g : MapGraph) (v : List Char) : ℕ := g.edges.countP fun e => v ∈ e

def clearVertex (g : MapGraph) (v : List Char) : MapGraph :=
  { g with edges := g.edges.filter fun e => v ∉ e }

end MapGraph

/-- `boost::connected_components`: the components of a graph are numbered, each number is used, and
two nodes have the same number if there is a path between them. -/
structure ConnectedComponents where
  number : MapGraph → ℕ
  component : MapGraph → List Char → ℕ
  component_lt : ∀ {g : MapGraph} {v}, v ∈ g.nodes → component g v < number g
  exists_component : ∀ {g : MapGraph} {i}, i < number g → ∃ v ∈ g.nodes, component g v = i
  component_eq_iff : ∀ {g : MapGraph}, g.WellFormed → ∀ {u v}, u ∈ g.nodes → v ∈ g.nodes →
    (component g u = component g v ↔ g.adjacency.Reachable u v)

/-- What `UniformRandomVariable::GetInteger` gives, one draw after the other, between 0 and a
maximum. -/
structure RandomIntegers where
  draw : ℕ → ℕ → ℕ
  draw_le : ∀ k max, draw k max ≤ max

inductive NodeType
  | unknown
  | client
  | gateway
  | backbone
  deriving DecidableEq, Repr

/-- `m_graph` with the property `vertex_rank`. -/
structure RocketfuelGraph where
  graph : MapGraph
  rank : List Char → NodeType

/-! ### The graph of the lines -/

namespace MapGraph

variable {g : MapGraph}

theorem WellFormed.addNode (hg : g.WellFormed) (name : List Char) :
    (g.addNode name).WellFormed where
  nodup := by
    rw [MapGraph.addNode]
    split
    · exact hg.nodup
    · rename_i hname
      exact hg.nodup.append (nodup_singleton name) (by simpa using hname)
  mem_nodes e he v hv := by
    rw [edges_addNode] at he
    exact mem_nodes_addNode.mpr (.inl (hg.mem_nodes e he v hv))

theorem WellFormed.addEdge (hg : g.WellFormed) {u v : List Char} (hu : u ∈ g.nodes)
    (hv : v ∈ g.nodes) : (g.addEdge s(u, v)).WellFormed where
  nodup := by
    rw [nodes_addEdge]
    exact hg.nodup
  mem_nodes e he w hw := by
    rw [nodes_addEdge]
    rcases mem_edges_addEdge.mp he with hold | rfl
    · exact hg.mem_nodes e hold w hw
    · rcases Sym2.mem_iff.mp hw with rfl | rfl
      · exact hu
      · exact hv

theorem WellFormed.addNeighbours (hg : g.WellFormed) {uid : List Char} (huid : uid ∈ g.nodes)
    (names : List (List Char)) : (names.foldl (addNeighbour uid) g).WellFormed := by
  induction names generalizing g with
  | nil => exact hg
  | cons name names ih =>
    rw [foldl_cons, addNeighbour]
    split
    · exact ih hg huid
    · have huid' : uid ∈ (g.addNode name).nodes :=
        mem_nodes_addNode.mpr (.inl huid)
      refine ih ((hg.addNode name).addEdge huid' ?_) ?_
      · exact mem_nodes_addNode.mpr (.inr rfl)
      · rwa [nodes_addEdge]

/-- The lines of a map give a graph that is well formed. -/
theorem wellFormed_of_lines {lines : List MapLine} {g' : MapGraph}
    (h : lines.foldlM generateFromMapsFile g = some g') (hg : g.WellFormed) : g'.WellFormed := by
  induction lines generalizing g with
  | nil =>
    cases h
    exact hg
  | cons line lines ih =>
    obtain ⟨next, hnext, hrest⟩ := Option.bind_eq_some_iff.mp h
    refine ih hrest ?_
    obtain ⟨names, -, rfl⟩ := Option.map_eq_some_iff.mp hnext
    split
    · exact hg
    · split
      · exact hg
      · exact (hg.addNode line.uid).addNeighbours
          (mem_nodes_addNode.mpr (.inr rfl)) names

end MapGraph

namespace RocketfuelGraph

/-- The first of the greatest. -/
def maxElement (sizes : List ℕ) : ℕ := (sizes.max?.map fun size => sizes.idxOf size).getD 0

/-- The nodes of each component are counted. -/
def componentSizes (C : ConnectedComponents) (g : MapGraph) : List ℕ :=
  (List.range (C.number g)).map fun i => g.nodes.countP fun v => C.component g v = i

def largestComponent (C : ConnectedComponents) (g : MapGraph) : ℕ := maxElement (componentSizes C g)

def keepOnlyBiggestConnectedComponent (C : ConnectedComponents) (g : MapGraph) : MapGraph :=
  let largest := largestComponent C g
  let cleared := (g.nodes.filter fun v => C.component g v ≠ largest).foldl MapGraph.clearVertex g
  { cleared with nodes := cleared.nodes.filter fun v => C.component g v = largest }

/-- `assignGw`. The first number bounds the depth of the recursion, which each time gives a type to
a node that had none. -/
def assignGw (g : MapGraph) (degree : ℕ) :
    ℕ → NodeType → (List Char → NodeType) → List Char → Option (List Char → NodeType)
  | 0, _, _, _ => none
  | n + 1, nodeType, rank, vertex =>
      (g.adjacent vertex).foldlM
        (fun rank u =>
          if rank u ≠ .unknown then some rank
          else
            let rank := Function.update rank u nodeType
            if g.degree u < degree then assignGw g degree n .backbone rank u else some rank)
        rank

def assignClients (g : MapGraph) (clientDegree gwDegree : ℕ) (rank : List Char → NodeType) :
    Option (List Char → NodeType) :=
  g.nodes.foldlM
    (fun rank v =>
      if g.degree v = clientDegree then
        assignGw g (gwDegree + 1) (g.nodes.length + 1) .gateway (Function.update rank v .client) v
      else some rank)
    rank

/-- The loop over the degrees of clients, and the backbone. -/
def assignTypes (g : MapGraph) (clientNodeDegrees : ℤ) : Option (List Char → NodeType) := do
  let rank ← (List.range clientNodeDegrees.toNat).foldlM
    (fun rank i => assignClients g (i + 1) (min (i + 1) 3) rank) fun _ => .unknown
  return fun v => if rank v = .unknown then .backbone else rank v

/-- `bbGraph`: for each backbone router an edge is added to each backbone router next to it. -/
def backboneGraph (g : MapGraph) (rank : List Char → NodeType) : MapGraph :=
  let nodes := g.nodes.filter fun v => rank v = .backbone
  (nodes.flatMap fun v => ((g.adjacent v).filter nodes.contains).map fun u => s(v, u)).foldl
    MapGraph.addEdge ⟨nodes, []⟩

/-- The nodes of a component. -/
def subgraph (C : ConnectedComponents) (bbGraph : MapGraph) (i : ℕ) : List (List Char) :=
  bbGraph.nodes.filter fun v => C.component bbGraph v = i

/-- A component is connected to the next by a link between random nodes. -/
def connectNext (C : ConnectedComponents) (random : RandomIntegers) (bbGraph : MapGraph)
    (g : MapGraph) (i : ℕ) : Option MapGraph := do
  let subgraph1 := subgraph C bbGraph i
  let subgraph2 := subgraph C bbGraph (i + 1)
  let v1 ← subgraph1[random.draw (2 * i) (subgraph1.length - 1)]?
  let v2 ← subgraph2[random.draw (2 * i + 1) (subgraph2.length - 1)]?
  return g.addEdge s(v1, v2)

def connectBackboneRouters (C : ConnectedComponents) (random : RandomIntegers) (g : MapGraph)
    (rank : List Char → NodeType) : Option MapGraph :=
  let bbGraph := backboneGraph g rank
  let num := C.number bbGraph
  if num = 1 then some g
  else (List.range (num - 1)).foldlM (connectNext C random bbGraph) g

/-- The types that a link may join. -/
def linkTypes : List (Sym2 NodeType) :=
  [s(.backbone, .backbone), s(.gateway, .backbone), s(.gateway, .gateway), s(.gateway, .client)]

/-- The loop that removes the links of a wrong type. -/
def removeWrongLinks (g : MapGraph) (rank : List Char → NodeType) : MapGraph :=
  { g with edges := g.edges.filter fun e => e.map rank ∈ linkTypes }

/-- `Read`, from the graph that the lines have given to the one whose nodes and links are
created. -/
def read (C : ConnectedComponents) (random : RandomIntegers)
    (keepOneComponent connectBackbones : Bool) (clientNodeDegrees : ℤ) (g : MapGraph) :
    Option RocketfuelGraph := do
  let g := if keepOneComponent then keepOnlyBiggestConnectedComponent C g else g
  let rank ← assignTypes g clientNodeDegrees
  let g ← if connectBackbones then connectBackboneRouters C random g rank else some g
  let g := removeWrongLinks g rank
  let g := if keepOneComponent then keepOnlyBiggestConnectedComponent C g else g
  return ⟨g, rank⟩

/-! ### The biggest component -/

variable {C : ConnectedComponents} {random : RandomIntegers} {g : MapGraph} {u v : List Char}

theorem adjacency_adj : g.adjacency.Adj u v ↔ s(u, v) ∈ g.edges ∧ u ≠ v :=
  fromEdgeSet_adj _

theorem clearVertices_nodes (vs : List (List Char)) (g : MapGraph) :
    (vs.foldl MapGraph.clearVertex g).nodes = g.nodes := by
  induction vs generalizing g with
  | nil => rfl
  | cons v vs ih => exact ih _

theorem mem_clearVertices_edges {vs : List (List Char)} {e : Sym2 (List Char)} :
    e ∈ (vs.foldl MapGraph.clearVertex g).edges ↔ e ∈ g.edges ∧ ∀ v ∈ vs, v ∉ e := by
  induction vs generalizing g with
  | nil => simp
  | cons v vs ih =>
    rw [foldl_cons, ih, forall_mem_cons, ← and_assoc]
    simp [MapGraph.clearVertex]

/-- The nodes that are kept. -/
def Kept (C : ConnectedComponents) (g : MapGraph) : Set (List Char) :=
  {v | v ∈ g.nodes ∧ C.component g v = largestComponent C g}

theorem mem_kept_nodes : v ∈ (keepOnlyBiggestConnectedComponent C g).nodes ↔ v ∈ Kept C g := by
  rw [keepOnlyBiggestConnectedComponent]
  dsimp only
  rw [clearVertices_nodes, mem_filter, decide_eq_true_eq]
  rfl

section

variable (hg : g.WellFormed)
include hg

theorem mem_kept_edges {e : Sym2 (List Char)} :
    e ∈ (keepOnlyBiggestConnectedComponent C g).edges ↔
      e ∈ g.edges ∧ ∀ v ∈ e, v ∈ Kept C g := by
  rw [keepOnlyBiggestConnectedComponent]
  dsimp only
  rw [mem_clearVertices_edges]
  refine and_congr_right fun he => ?_
  constructor
  · intro h v hv
    have hnode := hg.mem_nodes e he v hv
    refine ⟨hnode, ?_⟩
    by_contra hne
    exact h v (mem_filter.mpr ⟨hnode, decide_eq_true hne⟩) hv
  · intro h v hv hmem
    exact of_decide_eq_true (mem_filter.mp hv).2 (h v hmem).2

theorem wellFormed_kept :
    (keepOnlyBiggestConnectedComponent C g).WellFormed where
  nodup := by
    rw [keepOnlyBiggestConnectedComponent]
    dsimp only
    rw [clearVertices_nodes]
    exact hg.nodup.filter _
  mem_nodes e he v hv := mem_kept_nodes.mpr (((mem_kept_edges hg).mp he).2 v hv)

theorem closed_kept : Closed g.adjacency (Kept C g) := by
  rintro u v hadj ⟨hu, hcomponent⟩
  have hv : v ∈ g.nodes := hg.mem_nodes _ (adjacency_adj.mp hadj).1 v (Sym2.mem_mk_right u v)
  exact ⟨hv, ((C.component_eq_iff hg hu hv).mpr hadj.reachable).symm.trans hcomponent⟩

/-- Between nodes that are kept the edges are kept. -/
theorem induce_kept {S : Set (List Char)} (hS : S ⊆ Kept C g) :
    (keepOnlyBiggestConnectedComponent C g).adjacency.induce S = g.adjacency.induce S := by
  ext ⟨u, hu⟩ ⟨v, hv⟩
  simp only [comap_adj, Embedding.subtype_apply, adjacency_adj]
  refine and_congr_left fun _ => (mem_kept_edges hg).trans (and_iff_left fun w hw => ?_)
  rcases Sym2.mem_iff.mp hw with rfl | rfl
  · exact hS hu
  · exact hS hv

theorem preconnected_kept :
    ((keepOnlyBiggestConnectedComponent C g).adjacency.induce
      {v | v ∈ (keepOnlyBiggestConnectedComponent C g).nodes}).Preconnected := by
  have hnodes : {v | v ∈ (keepOnlyBiggestConnectedComponent C g).nodes} = Kept C g :=
    Set.ext fun v => mem_kept_nodes
  rw [hnodes, induce_kept hg Set.Subset.rfl]
  exact (closed_kept hg).preconnected fun u hu v hv =>
    (C.component_eq_iff hg hu.1 hv.1).mp (hu.2.trans hv.2.symm)

/-- Of a connected set of nodes everything is kept, or nothing is. -/
theorem preconnected_kept_inter {S : Set (List Char)} (hS : (g.adjacency.induce S).Preconnected) :
    ((keepOnlyBiggestConnectedComponent C g).adjacency.induce (S ∩ Kept C g)).Preconnected := by
  rw [induce_kept hg Set.inter_subset_right]
  exact (closed_kept hg).preconnected_inter hS

end

theorem exists_maxElement {sizes : List ℕ} (h : sizes ≠ []) :
    ∃ greatest, sizes[maxElement sizes]? = some greatest ∧ ∀ size ∈ sizes, size ≤ greatest := by
  obtain ⟨greatest, hmax⟩ := Option.isSome_iff_exists.mp (isSome_max?_of_ne_nil h)
  have hmem := max?_mem hmax
  refine ⟨greatest, ?_, fun size hsize => (max?_eq_some_iff.mp hmax).2 size hsize⟩
  rw [maxElement, hmax, Option.map_some, Option.getD_some,
    getElem?_eq_getElem (idxOf_lt_length_of_mem hmem), getElem_idxOf]

/-- No component has more nodes than the one that is kept. -/
theorem largestComponent_spec (h : g.nodes ≠ []) :
    largestComponent C g < C.number g ∧ ∀ i < C.number g,
      (g.nodes.countP fun v => C.component g v = i) ≤
        g.nodes.countP fun v => C.component g v = largestComponent C g := by
  obtain ⟨v, hv⟩ := exists_mem_of_ne_nil _ h
  have hpos : 0 < C.number g := lt_of_le_of_lt (Nat.zero_le _) (C.component_lt hv)
  obtain ⟨greatest, hget, hle⟩ := exists_maxElement
    (show componentSizes C g ≠ [] by simpa [componentSizes] using hpos.ne')
  obtain ⟨hlt, hgreatest⟩ := List.getElem?_eq_some_iff.mp hget
  simp only [componentSizes, getElem_map, getElem_range, length_map, length_range] at hlt hgreatest
  refine ⟨hlt, fun i hi => ?_⟩
  have hsize := hle _ (mem_map_of_mem (mem_range.mpr hi))
  rwa [← hgreatest] at hsize

theorem kept_ne_nil (h : g.nodes ≠ []) : (keepOnlyBiggestConnectedComponent C g).nodes ≠ [] := by
  obtain ⟨v, hv, hcomponent⟩ := C.exists_component (largestComponent_spec (C := C) h).1
  exact ne_nil_of_mem (mem_kept_nodes.mpr ⟨hv, hcomponent⟩)

/-! ### The types -/

/-- The nodes without a type. -/
def unknownCount (g : MapGraph) (rank : List Char → NodeType) : ℕ :=
  g.nodes.countP fun v => rank v = .unknown

variable {nodeType : NodeType}

theorem unknownCount_update_le (rank : List Char → NodeType) (u : List Char)
    (htype : nodeType ≠ .unknown) :
    unknownCount g (update rank u nodeType) ≤ unknownCount g rank := by
  refine countP_mono_left fun v _ hv => ?_
  by_cases hvu : v = u
  · subst hvu
    simp [htype] at hv
  · simpa [hvu] using hv

theorem unknownCount_update_lt {rank : List Char → NodeType} (hu : u ∈ g.nodes)
    (hunknown : rank u = .unknown) (htype : nodeType ≠ .unknown) :
    unknownCount g (update rank u nodeType) < unknownCount g rank := by
  obtain ⟨before, after, hnodes⟩ := append_of_mem hu
  have hle : ∀ nodes : List (List Char),
      (nodes.countP fun v => update rank u nodeType v = .unknown) ≤
        nodes.countP fun v => rank v = .unknown := fun nodes =>
    unknownCount_update_le (g := ⟨nodes, []⟩) rank u htype
  have hbefore := hle before
  have hafter := hle after
  rw [unknownCount, unknownCount, hnodes, countP_append, countP_append,
    countP_cons_of_neg (by simpa using htype), countP_cons_of_pos (by simpa using hunknown)]
  omega

/-- The recursion ends, since there are only so many nodes without a type. -/
theorem exists_assignGw (degree : ℕ) {n : ℕ} (htype : nodeType ≠ .unknown)
    {rank : List Char → NodeType} (hn : unknownCount g rank < n) (vertex : List Char) :
    ∃ rank', assignGw g degree n nodeType rank vertex = some rank' ∧
      unknownCount g rank' ≤ unknownCount g rank := by
  induction n generalizing nodeType rank vertex with
  | zero => exact absurd hn (Nat.not_lt_zero _)
  | succ n ih =>
    rw [assignGw]
    refine exists_foldlM (P := fun _ rank' => unknownCount g rank' ≤ unknownCount g rank) ?_
      (le_refl _)
    intro before u rank' hdone hle
    have hu : u ∈ g.nodes := mem_of_mem_filter (hdone.mem (by simp))
    split
    · exact ⟨rank', rfl, hle⟩
    · rename_i hunknown
      have hlt := unknownCount_update_lt hu (not_not.mp hunknown) htype
      dsimp only
      split
      · have hfuel : unknownCount g (update rank' u nodeType) < n := by omega
        obtain ⟨rank'', hrank'', hle'⟩ := ih (show NodeType.backbone ≠ .unknown by decide) hfuel u
        exact ⟨rank'', hrank'', by omega⟩
      · exact ⟨_, rfl, by omega⟩

theorem exists_assignClients (clientDegree gwDegree : ℕ) (rank : List Char → NodeType) :
    ∃ rank', assignClients g clientDegree gwDegree rank = some rank' := by
  obtain ⟨rank', hrank', -⟩ := exists_foldlM (P := fun _ _ => True) (l := g.nodes)
    (f := fun rank v =>
      if g.degree v = clientDegree then
        assignGw g (gwDegree + 1) (g.nodes.length + 1) .gateway (update rank v .client) v
      else some rank)
    (fun before v rank _ _ => by
      split
      · obtain ⟨rank', hrank', -⟩ := exists_assignGw (gwDegree + 1)
          (show NodeType.gateway ≠ .unknown by decide) (Nat.lt_succ_of_le countP_le_length) v
        exact ⟨rank', hrank', trivial⟩
      · exact ⟨rank, rfl, trivial⟩)
    (s := rank) trivial
  exact ⟨rank', hrank'⟩

/-- Every node gets a type. -/
theorem exists_assignTypes (g : MapGraph) (clientNodeDegrees : ℤ) :
    ∃ rank, assignTypes g clientNodeDegrees = some rank ∧ ∀ v, rank v ≠ .unknown := by
  obtain ⟨rank, hrank, -⟩ := exists_foldlM (P := fun _ _ => True)
    (l := range clientNodeDegrees.toNat)
    (f := fun rank i => assignClients g (i + 1) (min (i + 1) 3) rank)
    (fun _ i rank _ _ => (exists_assignClients (i + 1) (min (i + 1) 3) rank).imp
      fun _ h => ⟨h, trivial⟩)
    (s := fun _ => .unknown) trivial
  refine ⟨_, by rw [assignTypes, hrank]; rfl, fun v => ?_⟩
  split
  · decide
  · assumption

/-! ### The backbone -/

variable {rank : List Char → NodeType}

/-- The backbone routers. -/
def Backbone (g : MapGraph) (rank : List Char → NodeType) : Set (List Char) :=
  {v | v ∈ g.nodes ∧ rank v = .backbone}

theorem foldl_addEdge (es : List (Sym2 (List Char))) (g : MapGraph) :
    (es.foldl MapGraph.addEdge g).nodes = g.nodes ∧
      ∀ e, e ∈ (es.foldl MapGraph.addEdge g).edges ↔ e ∈ g.edges ∨ e ∈ es := by
  induction es generalizing g with
  | nil => simp
  | cons e es ih =>
    obtain ⟨hnodes, hedges⟩ := ih (g.addEdge e)
    refine ⟨hnodes.trans (nodes_addEdge g e), fun edge => ?_⟩
    rw [foldl_cons, hedges, mem_edges_addEdge, mem_cons, or_assoc]

theorem mem_backboneGraph_nodes : v ∈ (backboneGraph g rank).nodes ↔ v ∈ Backbone g rank := by
  rw [backboneGraph, (foldl_addEdge _ _).1, mem_filter, decide_eq_true_eq]
  rfl

/-- The edges between backbone routers. -/
theorem mem_backboneGraph_edges :
    s(u, v) ∈ (backboneGraph g rank).edges ↔
      s(u, v) ∈ g.edges ∧ u ∈ Backbone g rank ∧ v ∈ Backbone g rank := by
  rw [backboneGraph, (foldl_addEdge _ _).2]
  simp only [not_mem_nil, false_or, mem_flatMap, mem_map, mem_filter,
    contains_iff_mem, decide_eq_true_eq, MapGraph.adjacent]
  constructor
  · rintro ⟨a, ha, b, ⟨⟨-, hab⟩, hb⟩, heq⟩
    rcases Sym2.eq_iff.mp heq with ⟨rfl, rfl⟩ | ⟨rfl, rfl⟩
    · exact ⟨hab, ha, hb⟩
    · exact ⟨Sym2.eq_swap ▸ hab, hb, ha⟩
  · rintro ⟨huv, hu, hv⟩
    exact ⟨u, hu, v, ⟨⟨hv.1, huv⟩, hv⟩, rfl⟩

theorem wellFormed_backboneGraph (hg : g.WellFormed) : (backboneGraph g rank).WellFormed where
  nodup := by
    rw [backboneGraph, (foldl_addEdge _ _).1]
    exact hg.nodup.filter _
  mem_nodes e he v hv := by
    induction e with
    | _ a b =>
      obtain ⟨-, ha, hb⟩ := mem_backboneGraph_edges.mp he
      rw [mem_backboneGraph_nodes]
      rcases Sym2.mem_iff.mp hv with rfl | rfl
      · exact ha
      · exact hb

/-- Components whose numbers are consecutive are joined by an edge. -/
def Joined (C : ConnectedComponents) (bbGraph g : MapGraph) (i : ℕ) : Prop :=
  ∃ u ∈ bbGraph.nodes, ∃ v ∈ bbGraph.nodes, C.component bbGraph u = i ∧
    C.component bbGraph v = i + 1 ∧ s(u, v) ∈ g.edges

/-- Edges between nodes of the backbone have been added. -/
structure Links (bbGraph g g' : MapGraph) : Prop where
  nodes : g'.nodes = g.nodes
  old : ∀ e ∈ g.edges, e ∈ g'.edges
  new : ∀ e ∈ g'.edges, e ∈ g.edges ∨ ∀ v ∈ e, v ∈ bbGraph.nodes

theorem exists_draw (random : RandomIntegers) (bbGraph : MapGraph) {i : ℕ}
    (hi : i < C.number bbGraph) (k : ℕ) :
    ∃ v ∈ bbGraph.nodes, C.component bbGraph v = i ∧
      (subgraph C bbGraph i)[random.draw k ((subgraph C bbGraph i).length - 1)]? = some v := by
  obtain ⟨first, hfirst, hcomponent⟩ := C.exists_component hi
  have hpos : 0 < (subgraph C bbGraph i).length := length_pos_of_mem
    (mem_filter.mpr ⟨hfirst, decide_eq_true hcomponent⟩)
  have hlt : random.draw k ((subgraph C bbGraph i).length - 1) < (subgraph C bbGraph i).length :=
    lt_of_le_of_lt (random.draw_le _ _) (Nat.sub_lt hpos Nat.one_pos)
  have hmem := mem_filter.mp (getElem_mem hlt)
  exact ⟨_, hmem.1, of_decide_eq_true hmem.2, getElem?_eq_getElem hlt⟩

theorem exists_connectNext (random : RandomIntegers) (bbGraph g : MapGraph) {i : ℕ}
    (hi : i + 1 < C.number bbGraph) :
    ∃ g', connectNext C random bbGraph g i = some g' ∧ Links bbGraph g g' ∧
      Joined C bbGraph g' i := by
  obtain ⟨u, hu, hcu, hgetu⟩ := exists_draw (C := C) random bbGraph (Nat.lt_of_succ_lt hi) (2 * i)
  obtain ⟨v, hv, hcv, hgetv⟩ := exists_draw (C := C) random bbGraph hi (2 * i + 1)
  refine ⟨g.addEdge s(u, v), ?_, ⟨nodes_addEdge _ _, fun e he =>
    mem_edges_addEdge.mpr (.inl he), fun e he => ?_⟩, u, hu, v, hv, hcu, hcv,
    mem_edges_addEdge.mpr (.inr rfl)⟩
  · rw [connectNext]
    simp only [hgetu, hgetv, Option.bind_eq_bind, Option.bind_some]
    rfl
  · refine (mem_edges_addEdge.mp he).imp_right ?_
    rintro rfl w hw
    rcases Sym2.mem_iff.mp hw with rfl | rfl
    · exact hu
    · exact hv

/-- Each component of the backbone is joined to the next. -/
theorem exists_connectBackboneRouters (random : RandomIntegers) (g : MapGraph)
    (rank : List Char → NodeType) :
    ∃ g', connectBackboneRouters C random g rank = some g' ∧
      Links (backboneGraph g rank) g g' ∧
      ∀ i, i + 1 < C.number (backboneGraph g rank) → Joined C (backboneGraph g rank) g' i := by
  rw [connectBackboneRouters]
  generalize backboneGraph g rank = bbGraph
  split
  · rename_i hone
    exact ⟨g, rfl, ⟨rfl, fun _ => id, fun _ => .inl⟩, fun i hi => by omega⟩
  · obtain ⟨g', hrun, hlinks, hjoined⟩ := exists_foldlM
      (P := fun done g' => Links bbGraph g g' ∧ ∀ i ∈ done, Joined C bbGraph g' i)
      (f := connectNext C random bbGraph) (l := range (C.number bbGraph - 1)) (s := g)
      (fun done i s hdone hs => by
        have hi : i < C.number bbGraph - 1 := mem_range.mp (hdone.mem (by simp))
        obtain ⟨s', hs', hnext, hjoin⟩ := exists_connectNext (C := C) random bbGraph s
          (show i + 1 < C.number bbGraph by omega)
        refine ⟨s', hs', ⟨hnext.nodes.trans hs.1.nodes, fun e he => hnext.old e (hs.1.old e he),
          fun e he => (hnext.new e he).elim (hs.1.new e) .inr⟩, ?_⟩
        refine forall_mem_append.mpr ⟨fun j hj => ?_, forall_mem_singleton.mpr hjoin⟩
        obtain ⟨u, hu, v, hv, hcu, hcv, hedge⟩ := hs.2 j hj
        exact ⟨u, hu, v, hv, hcu, hcv, hnext.old _ hedge⟩)
      ⟨⟨rfl, fun _ => id, fun _ => .inl⟩, forall_mem_nil _⟩
    exact ⟨g', hrun, hlinks, fun i hi => hjoined i (mem_range.mpr (by omega))⟩

/-- After that the backbone is connected by itself. -/
theorem preconnected_backbone (hg : g.WellFormed) {g' : MapGraph}
    (hlinks : Links (backboneGraph g rank) g g')
    (hjoined : ∀ i, i + 1 < C.number (backboneGraph g rank) →
      Joined C (backboneGraph g rank) g' i) :
    (g'.adjacency.induce (Backbone g rank)).Preconnected := by
  have hbb : (backboneGraph g rank).WellFormed := wellFormed_backboneGraph hg
  have hclosed : Closed (backboneGraph g rank).adjacency (Backbone g rank) := fun u v hadj _ =>
    (mem_backboneGraph_edges.mp (adjacency_adj.mp hadj).1).2.2
  have hle : (backboneGraph g rank).adjacency ≤ g'.adjacency := fun u v hadj => by
    obtain ⟨hedge, hne⟩ := adjacency_adj.mp hadj
    exact adjacency_adj.mpr ⟨hlinks.old _ (mem_backboneGraph_edges.mp hedge).1, hne⟩
  refine preconnected_of_chain (c := C.component (backboneGraph g rank)) ?_
    (fun v => C.component_lt (mem_backboneGraph_nodes.mpr v.2)) fun i hi => ?_
  · rintro ⟨u, hu⟩ ⟨v, hv⟩ hcomponent
    have hreach := (C.component_eq_iff hbb (mem_backboneGraph_nodes.mpr hu)
      (mem_backboneGraph_nodes.mpr hv)).mp hcomponent
    obtain ⟨_, hinduced⟩ := hclosed.reachable_induce hu hreach
    exact hinduced.mono fun a b hadj => hle hadj
  · obtain ⟨u, hu, v, hv, hcu, hcv, hedge⟩ := hjoined i hi
    refine ⟨⟨u, mem_backboneGraph_nodes.mp hu⟩, ⟨v, mem_backboneGraph_nodes.mp hv⟩, hcu, hcv,
      adjacency_adj.mpr ⟨hedge, ?_⟩⟩
    rintro rfl
    exact Nat.succ_ne_self i (hcv.symm.trans hcu)

/-! ### The topology -/

/-- The types of the ends of a link. -/
inductive Joins : NodeType → NodeType → Prop
  | backbones : Joins .backbone .backbone
  | backboneGateway : Joins .backbone .gateway
  | gatewayBackbone : Joins .gateway .backbone
  | gateways : Joins .gateway .gateway
  | gatewayClient : Joins .gateway .client
  | clientGateway : Joins .client .gateway

theorem joins_of_linkTypes {a b : NodeType} (h : s(a, b) ∈ linkTypes) : Joins a b := by
  cases a <;> cases b <;> first | exact absurd h (by decide) | constructor

/-- A connected graph, with links between nodes of the right types, whose backbone is connected
without its gateways. -/
structure Valid (t : RocketfuelGraph) : Prop where
  connected : (t.graph.adjacency.induce {v | v ∈ t.graph.nodes}).Preconnected
  joins : ∀ u v, s(u, v) ∈ t.graph.edges → Joins (t.rank u) (t.rank v)
  backbone : (t.graph.adjacency.induce
    {v | v ∈ t.graph.nodes ∧ t.rank v = .backbone}).Preconnected

/-- Links between backbone routers are not removed. -/
theorem preconnected_removeWrongLinks (h : (g.adjacency.induce (Backbone g rank)).Preconnected) :
    ((removeWrongLinks g rank).adjacency.induce (Backbone g rank)).Preconnected := by
  refine h.mono fun u v hadj => ?_
  obtain ⟨hedge, hne⟩ := adjacency_adj.mp hadj
  refine adjacency_adj.mpr ⟨mem_filter.mpr ⟨hedge, decide_eq_true ?_⟩, hne⟩
  have hmap : Sym2.map rank s(u.1, v.1) = s(.backbone, .backbone) := by
    rw [Sym2.map_mk, u.2.2, v.2.2]
  exact hmap ▸ mem_cons_self

theorem Links.wellFormed {bbGraph g' : MapGraph} (h : Links bbGraph g g') (hg : g.WellFormed)
    (hbb : ∀ v ∈ bbGraph.nodes, v ∈ g.nodes) : g'.WellFormed where
  nodup := h.nodes ▸ hg.nodup
  mem_nodes e he v hv := by
    rw [h.nodes]
    exact (h.new e he).elim (fun hold => hg.mem_nodes e hold v hv) fun hnew => hbb v (hnew v hv)

/-- Whatever graph the lines give, and whatever the random choices are, there is a topology, it is
valid, and it has a node if the graph has one. -/
theorem read_valid (C : ConnectedComponents) (random : RandomIntegers) (hg : g.WellFormed)
    (clientNodeDegrees : ℤ) :
    ∃ t, read C random true true clientNodeDegrees g = some t ∧ t.Valid ∧
      (g.nodes ≠ [] → t.graph.nodes ≠ []) := by
  have hkept := wellFormed_kept (C := C) hg
  obtain ⟨rank, hrank, -⟩ :=
    exists_assignTypes (keepOnlyBiggestConnectedComponent C g) clientNodeDegrees
  obtain ⟨g', hconnect, hlinks, hjoined⟩ := exists_connectBackboneRouters (C := C) random
    (keepOnlyBiggestConnectedComponent C g) rank
  have hbackbone := preconnected_backbone hkept hlinks hjoined
  have hg' : g'.WellFormed := hlinks.wellFormed hkept fun v hv => (mem_backboneGraph_nodes.mp hv).1
  have hremoved : (removeWrongLinks g' rank).WellFormed :=
    ⟨hg'.nodup, fun e he => hg'.mem_nodes e (List.mem_of_mem_filter he)⟩
  refine ⟨⟨keepOnlyBiggestConnectedComponent C (removeWrongLinks g' rank), rank⟩, ?_,
    ⟨preconnected_kept hremoved, fun u v huv => ?_, ?_⟩, fun hne => ?_⟩
  · rw [read]
    simp only [if_true, hrank, hconnect, Option.bind_eq_bind, Option.bind_some]
    rfl
  · have hedge := ((mem_kept_edges hremoved).mp huv).1
    exact joins_of_linkTypes (of_decide_eq_true (List.mem_filter.mp hedge).2)
  · have hset : {v | v ∈ (keepOnlyBiggestConnectedComponent C (removeWrongLinks g' rank)).nodes ∧
        rank v = .backbone} = Backbone g' rank ∩ Kept C (removeWrongLinks g' rank) := by
      ext v
      simp only [Set.mem_ofPred_eq, mem_kept_nodes, Set.mem_inter_iff, Backbone]
      exact ⟨fun ⟨hkept, htype⟩ => ⟨⟨hkept.1, htype⟩, hkept⟩, fun ⟨hbb, hkept⟩ => ⟨hkept, hbb.2⟩⟩
    rw [hset]
    refine preconnected_kept_inter hremoved (preconnected_removeWrongLinks ?_)
    rwa [Backbone, hlinks.nodes]
  · exact kept_ne_nil (show g'.nodes ≠ [] from hlinks.nodes ▸ kept_ne_nil hne)

end RocketfuelGraph

/-! ### Components by labels -/

/-- Labels merged along the edges. -/
def MapGraph.label (g : MapGraph) : List Char → List Char :=
  labels (g.nodes.flatMap fun v => (g.adjacent v).map fun u => (v, u))

theorem MapGraph.label_eq_iff {g : MapGraph} (hg : g.WellFormed) {u v : List Char} :
    g.label u = g.label v ↔ g.adjacency.Reachable u v := by
  have hpair : ∀ a b, (a, b) ∈ (g.nodes.flatMap fun v => (g.adjacent v).map fun u => (v, u)) ↔
      a ∈ g.nodes ∧ b ∈ g.nodes ∧ s(a, b) ∈ g.edges := by
    simp [adjacent]
  refine labels_eq_iff_reachable (fun a b hadj => ?_) (fun a b hab => ?_) u v
  · obtain ⟨hedge, -⟩ := RocketfuelGraph.adjacency_adj.mp hadj
    exact (hpair a b).mpr ⟨hg.mem_nodes _ hedge a (Sym2.mem_mk_left a b),
      hg.mem_nodes _ hedge b (Sym2.mem_mk_right a b), hedge⟩
  · by_cases hne : a = b
    · exact hne ▸ .refl a
    · exact (RocketfuelGraph.adjacency_adj.mpr ⟨((hpair a b).mp hab).2.2, hne⟩).reachable

/-- Components are numbered in the order of the labels of their nodes. -/
def ConnectedComponents.byLabels : ConnectedComponents where
  number g := (g.nodes.map g.label).dedup.length
  component g v := (g.nodes.map g.label).dedup.idxOf (g.label v)
  component_lt hv := List.idxOf_lt_length_of_mem (List.mem_dedup.mpr (List.mem_map_of_mem hv))
  exists_component {g} i hi := by
    obtain ⟨v, hv, hlabel⟩ := List.mem_map.mp (List.mem_dedup.mp (List.getElem_mem hi))
    exact ⟨v, hv, by rw [hlabel, (List.nodup_dedup _).idxOf_getElem]⟩
  component_eq_iff {g} hg u v hu hv := by
    rw [List.idxOf_inj (List.mem_dedup.mpr (List.mem_map_of_mem hu)), g.label_eq_iff hg]

namespace RocketfuelGraph

/-- A line of seven nodes with another at the middle, and two nodes that are apart. -/
def fork : MapGraph where
  nodes := [['1'], ['2'], ['3'], ['4'], ['5'], ['6'], ['7'], ['8'], ['9'], ['0']]
  edges := [s(['1'], ['2']), s(['2'], ['3']), s(['3'], ['4']), s(['4'], ['5']), s(['5'], ['6']),
    s(['6'], ['7']), s(['4'], ['8']), s(['9'], ['0'])]

/-- The middle is a gateway, and the backbone routers at its sides get a link. -/
theorem read_valid_fork :
    ∃ t, read .byLabels ⟨fun _ _ => 0, fun _ _ => Nat.zero_le _⟩ true true 1 fork = some t ∧
      t.Valid ∧ (fork.nodes ≠ [] → t.graph.nodes ≠ []) :=
  read_valid _ _ ⟨by decide, by simp [fork]⟩ 1

end RocketfuelGraph

end ValProofs
