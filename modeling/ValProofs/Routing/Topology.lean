import Mathlib.Data.List.Nodup
import ValProofs.Lib.ShortestPaths

/-!
The simulated network as global routing sees it. Nodes have faces, a face of a network
device leads to the channel of the device, and a channel has devices on other nodes. A
channel of two devices is taken as a direct link between the nodes; any other channel
is a vertex of its own, entered through a face and left for nothing.

A path is a sequence of links. Its cost is the sum of the metrics of the faces through
which it leaves the nodes.
-/

namespace ValProofs

open Lib List

/-- A face of a node. -/
structure FaceRef where
  node : ℕ
  id : ℕ
  deriving DecidableEq, Repr

/-- What `dynamic_cast<NetDeviceTransport*>` and `GetNetDevice` say of a face. -/
inductive Transport
  | other
  | netDevice (device : Option ℕ)
  deriving DecidableEq, Repr

def Transport.isNetDevice : Transport → Bool
  | .other => false
  | .netDevice _ => true

structure NodeFace where
  id : ℕ
  transport : Transport
  deriving DecidableEq, Repr

/-- What a `GlobalRouter` is aggregated to. -/
inductive Vertex
  | node (id : ℕ)
  | channel (id : ℕ)
  deriving DecidableEq, Repr

structure Topology where
  /-- The nodes of `NodeList` are `0, ..., numNodes - 1`. -/
  numNodes : ℕ
  numChannels : ℕ
  /-- The face table of a node. -/
  faces : ℕ → List NodeFace
  /-- `NetDevice::GetNode`. -/
  deviceNode : ℕ → ℕ
  /-- `NetDevice::GetChannel`. -/
  deviceChannel : ℕ → Option ℕ
  /-- The devices of a channel. -/
  devices : ℕ → List ℕ
  nodup_faces : ∀ n, ((faces n).map NodeFace.id).Nodup
  nodup_devices : ∀ c, (devices c).Nodup
  attached : ∀ d c, deviceChannel d = some c → d ∈ devices c
  channel_lt : ∀ d c, deviceChannel d = some c → c < numChannels
  node_lt : ∀ d c, d ∈ devices c → deviceNode d < numNodes

namespace Topology

variable (T : Topology)

/-- Nodes are joined by channels of two devices. -/
def TwoDevice : Prop := ∀ d c, T.deviceChannel d = some c → (T.devices c).length = 2

def vertices : List Vertex :=
  (List.range T.numNodes).map .node ++ (List.range T.numChannels).map .channel

/-- The face table has a face with this identifier. -/
def hasFace (n id : ℕ) : Bool := (T.faces n).any fun face => face.id = id

/-- The links that `Install` finds for a face of a node. -/
def faceLinks (n : ℕ) (face : NodeFace) : List (Option FaceRef × Vertex) :=
  match face.transport with
  | .other => []
  | .netDevice none => []
  | .netDevice (some nd) =>
      match T.deviceChannel nd with
      | none => []
      | some ch =>
          if (T.devices ch).length = 2 then
            ((T.devices ch).filter fun otherSide => otherSide ≠ nd).map fun otherSide =>
              (some ⟨n, face.id⟩, .node (T.deviceNode otherSide))
          else [(some ⟨n, face.id⟩, .channel ch)]

def links : Vertex → List (Option FaceRef × Vertex)
  | .node n => (T.faces n).flatMap (T.faceLinks n)
  | .channel c => (T.devices c).map fun dev => (none, .node (T.deviceNode dev))

/-- Paths, as the links they take. -/
def Path : Vertex → List (Option FaceRef) → Vertex → Prop :=
  Walk fun u link v => (link, v) ∈ T.links u

/-- The metric of the face a link leaves through. -/
def linkCost (metric : FaceRef → ℕ) : Option FaceRef → ℕ
  | none => 0
  | some face => metric face

/-- The cost of a cheapest path between two nodes. -/
def Distance (metric : FaceRef → ℕ) (n m c : ℕ) : Prop :=
  IsLeast {c | ∃ path, T.Path (.node n) path (.node m) ∧ c = cost (linkCost metric) path} c

def Connected : Prop :=
  ∀ n < T.numNodes, ∀ m < T.numNodes, ∃ path, T.Path (.node n) path (.node m)

/-- A cheapest path between two nodes leaves through the face, and costs this much. -/
def Cheapest (metric : FaceRef → ℕ) (n m : ℕ) (face : FaceRef) (c : ℕ) : Prop :=
  T.Distance metric n m c ∧ ∃ v path, (some face, v) ∈ T.links (.node n) ∧
    T.Path v path (.node m) ∧ c = metric face + cost (linkCost metric) path

variable {T}

variable {n : ℕ}

theorem Distance.unique {metric : FaceRef → ℕ} {m c c' : ℕ} (h : T.Distance metric n m c)
    (h' : T.Distance metric n m c') : c = c' :=
  IsLeast.unique h h'

variable {v : Vertex}

theorem mem_vertices : v ∈ T.vertices ↔
    (∃ n < T.numNodes, v = .node n) ∨ ∃ c < T.numChannels, v = .channel c := by
  simp only [vertices, mem_append, mem_map, mem_range, eq_comm]

theorem node_mem_vertices : Vertex.node n ∈ T.vertices ↔ n < T.numNodes := by
  rw [mem_vertices]
  constructor
  · rintro (⟨m, hm, heq⟩ | ⟨c, -, heq⟩)
    · cases heq
      exact hm
    · cases heq
  · exact fun hn => .inl ⟨n, hn, rfl⟩

variable {link : Option FaceRef}

theorem mem_faceLinks {face : NodeFace} (h : (link, v) ∈ T.faceLinks n face) :
    link = some ⟨n, face.id⟩ ∧ ∃ nd ch, face.transport = .netDevice (some nd) ∧
      T.deviceChannel nd = some ch ∧
      (((T.devices ch).length = 2 ∧ ∃ otherSide ∈ T.devices ch, otherSide ≠ nd ∧
          v = .node (T.deviceNode otherSide)) ∨
        ((T.devices ch).length ≠ 2 ∧ v = .channel ch)) := by
  rw [faceLinks] at h
  split at h
  · cases h
  · cases h
  · rename_i nd htransport
    split at h
    · cases h
    · rename_i ch hch
      split at h
      · rename_i htwo
        obtain ⟨otherSide, hother, heq⟩ := mem_map.mp h
        obtain ⟨hmem, hne⟩ := mem_filter.mp hother
        cases heq
        exact ⟨rfl, nd, ch, htransport, hch, .inl ⟨htwo, otherSide, hmem, by simpa using hne, rfl⟩⟩
      · rename_i hnot
        cases mem_singleton.mp h
        exact ⟨rfl, nd, ch, htransport, hch, .inr ⟨hnot, rfl⟩⟩

/-- A link of a node is one of its faces. -/
theorem exists_face_of_mem_links (h : (link, v) ∈ T.links (.node n)) :
    ∃ face ∈ T.faces n, link = some ⟨n, face.id⟩ ∧ (link, v) ∈ T.faceLinks n face := by
  obtain ⟨face, hface, hmem⟩ := mem_flatMap.mp h
  exact ⟨face, hface, (mem_faceLinks hmem).1, hmem⟩

theorem hasFace_of_mem_links {face : FaceRef} (h : (some face, v) ∈ T.links (.node n)) :
    face.node = n ∧ T.hasFace n face.id = true := by
  obtain ⟨face', hface, heq, -⟩ := exists_face_of_mem_links h
  cases heq
  exact ⟨rfl, any_eq_true.mpr ⟨face', hface, by simp⟩⟩

theorem mem_vertices_of_mem_links {u : Vertex} (h : (link, v) ∈ T.links u) : v ∈ T.vertices := by
  cases u with
  | node n =>
    obtain ⟨face, -, -, hmem⟩ := exists_face_of_mem_links h
    obtain ⟨-, nd, ch, -, hch, ⟨-, otherSide, hother, -, rfl⟩ | ⟨-, rfl⟩⟩ := mem_faceLinks hmem
    · exact node_mem_vertices.mpr (T.node_lt otherSide ch hother)
    · exact mem_vertices.mpr (.inr ⟨ch, T.channel_lt nd ch hch, rfl⟩)
  | channel c =>
    obtain ⟨dev, hdev, heq⟩ := mem_map.mp h
    cases heq
    exact node_mem_vertices.mpr (T.node_lt dev c hdev)

/-! ### Channels of two devices -/

theorem TwoDevice.exists_node (hT : T.TwoDevice) (h : (link, v) ∈ T.links (.node n)) :
    ∃ face m, link = some face ∧ face.node = n ∧ v = .node m ∧ m < T.numNodes := by
  obtain ⟨face, -, heq, hmem⟩ := exists_face_of_mem_links h
  obtain ⟨-, nd, ch, -, hch, ⟨-, otherSide, hother, -, rfl⟩ | ⟨hnot, -⟩⟩ := mem_faceLinks hmem
  · exact ⟨⟨n, face.id⟩, T.deviceNode otherSide, heq, rfl, rfl, T.node_lt otherSide ch hother⟩
  · exact absurd (hT nd ch hch) hnot

/-- Of two devices one is the other side of the other. -/
theorem eq_of_length_two {ds : List ℕ} (hlength : ds.length = 2) (hnodup : ds.Nodup)
    {d a b : ℕ} (hd : d ∈ ds) (ha : a ∈ ds) (hb : b ∈ ds) (had : a ≠ d) (hbd : b ≠ d) : a = b := by
  obtain ⟨x, y, rfl⟩ := length_eq_two.mp hlength
  simp only [mem_cons, not_mem_nil, or_false] at hd ha hb
  grind

/-- There is one node behind a face. -/
theorem TwoDevice.eq_of_mem_links (hT : T.TwoDevice) {face : FaceRef} {v' : Vertex}
    (h : (some face, v) ∈ T.links (.node n)) (h' : (some face, v') ∈ T.links (.node n)) :
    v = v' := by
  obtain ⟨f, hf, heq, hmem⟩ := exists_face_of_mem_links h
  obtain ⟨f', hf', heq', hmem'⟩ := exists_face_of_mem_links h'
  have hid : f.id = f'.id := congrArg FaceRef.id (Option.some.inj (heq.symm.trans heq'))
  have hsame := inj_on_of_nodup_map (T.nodup_faces n) hf hf' hid
  subst hsame
  obtain ⟨-, nd, ch, htransport, hch, hcases⟩ := mem_faceLinks hmem
  obtain ⟨-, nd', ch', htransport', hch', hcases'⟩ := mem_faceLinks hmem'
  have hnd : nd = nd' := by
    rw [htransport] at htransport'
    cases htransport'
    rfl
  subst hnd
  have hchannel : ch = ch' := Option.some.inj (hch.symm.trans hch')
  subst hchannel
  rcases hcases with ⟨htwo, a, ha, hane, rfl⟩ | ⟨hnot, -⟩
  · rcases hcases' with ⟨-, b, hb, hbne, rfl⟩ | ⟨hnot, -⟩
    · rw [eq_of_length_two htwo (T.nodup_devices ch) (T.attached nd ch hch) ha hb hane hbne]
    · exact absurd htwo hnot
  · exact absurd (hT nd ch hch) hnot

/-! ### Point-to-point links -/

/-- The node of a device: the devices of link `i` are `2 * i` and `2 * i + 1`. -/
def pairNode (pairs : List (ℕ × ℕ)) (d : ℕ) : ℕ :=
  (pairs[d / 2]?).elim 0 fun pair => if d % 2 = 0 then pair.1 else pair.2

/-- Nodes joined by point-to-point links. Link `i` is channel `i`, and device `d` has the
face `256 + d`. -/
def pointToPoint (numNodes : ℕ) (pairs : List (ℕ × ℕ))
    (hpairs : ∀ pair ∈ pairs, pair.1 < numNodes ∧ pair.2 < numNodes) : Topology :=
  { numNodes
    numChannels := pairs.length
    faces := fun n => ((List.range (2 * pairs.length)).filter fun d => pairNode pairs d = n).map
      fun d => ⟨256 + d, .netDevice (some d)⟩
    deviceNode := pairNode pairs
    deviceChannel := fun d => if d / 2 < pairs.length then some (d / 2) else none
    devices := fun c => if c < pairs.length then [2 * c, 2 * c + 1] else []
    nodup_faces := by
      intro n
      rw [List.map_map]
      refine List.Nodup.map (fun a b heq => ?_) (List.nodup_range.filter _)
      simpa using heq
    nodup_devices := by
      intro c
      split
      · simp
      · exact List.nodup_nil
    attached := by
      intro d c hchannel
      obtain ⟨hlt, heq⟩ := Option.ite_none_right_eq_some.mp hchannel
      cases heq
      rw [if_pos hlt, List.mem_cons, List.mem_singleton]
      omega
    channel_lt := by
      intro d c hchannel
      obtain ⟨hlt, heq⟩ := Option.ite_none_right_eq_some.mp hchannel
      cases heq
      exact hlt
    node_lt := by
      intro d c hmem
      split at hmem
      · rename_i hlt
        have hd : d / 2 = c := by
          rw [List.mem_cons, List.mem_singleton] at hmem
          omega
        obtain ⟨hfst, hsnd⟩ := hpairs pairs[c] (List.getElem_mem hlt)
        rw [pairNode, hd, List.getElem?_eq_getElem hlt, Option.elim_some]
        split
        · exact hfst
        · exact hsnd
      · cases hmem }

theorem twoDevice_pointToPoint (numNodes : ℕ) (pairs : List (ℕ × ℕ))
    (hpairs : ∀ pair ∈ pairs, pair.1 < numNodes ∧ pair.2 < numNodes) :
    (pointToPoint numNodes pairs hpairs).TwoDevice := by
  intro d c hchannel
  obtain ⟨hlt, heq⟩ := Option.ite_none_right_eq_some.mp hchannel
  cases heq
  exact congrArg length (if_pos hlt)

/-- Three nodes in a line. -/
def line : Topology := pointToPoint 3 [(0, 1), (1, 2)] (by decide)

theorem twoDevice_line : line.TwoDevice := twoDevice_pointToPoint _ _ _

theorem connected_line : line.Connected := by
  have hstep : ∀ n m face, (some face, .node m) ∈ line.links (.node n) →
      line.Path (.node n) [some face] (.node m) := fun n m face hlink => .cons hlink (.nil _)
  have h01 := hstep 0 1 ⟨0, 256⟩ (by decide)
  have h10 := hstep 1 0 ⟨1, 257⟩ (by decide)
  have h12 := hstep 1 2 ⟨1, 258⟩ (by decide)
  have h21 := hstep 2 1 ⟨2, 259⟩ (by decide)
  -- Every node has a path to the one in the middle, and from it.
  have hto : ∀ n < 3, ∃ path, line.Path (.node n) path (.node 1) := by
    intro n hn
    obtain rfl | rfl | rfl : n = 0 ∨ n = 1 ∨ n = 2 := by omega
    · exact ⟨_, h01⟩
    · exact ⟨_, .nil _⟩
    · exact ⟨_, h21⟩
  have hfrom : ∀ n < 3, ∃ path, line.Path (.node 1) path (.node n) := by
    intro n hn
    obtain rfl | rfl | rfl : n = 0 ∨ n = 1 ∨ n = 2 := by omega
    · exact ⟨_, h10⟩
    · exact ⟨_, .nil _⟩
    · exact ⟨_, h12⟩
  intro n hn m hm
  obtain ⟨path, hpath⟩ := hto n hn
  obtain ⟨path', hpath'⟩ := hfrom m hm
  exact ⟨_, hpath.append hpath'⟩

end Topology

end ValProofs
