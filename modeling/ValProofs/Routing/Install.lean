import ValProofs.Routing.GlobalRouter

/-!
The routers that `Install` creates.

A router is created before the links of its vertex are looked at, so a vertex is never entered
twice, also when it is reached again while its own loop is still at work. What has a router in
the end are the vertices that can be reached from the nodes it was called for, and a router has
one incidency for each face of its node that is attached to a channel, or for each device of its
channel.
-/

namespace ValProofs

open Lib List Option Function

namespace Installation

/-! ### What has been created -/

theorem isSome_addIncidency (routers : Routers) (v u : Vertex) (link : Option FaceRef × Vertex) :
    (routers.addIncidency v link u).isSome = (routers u).isSome := by
  rw [Routers.addIncidency]
  by_cases huv : u = v
  · rw [huv, update_self, isSome_map]
  · rw [update_of_ne huv]

variable {T : Topology} {v : Vertex} {inst : Vertex → Installation → Option Installation} {fuel : ℕ}

/-- The record is right, and what has been created can be reached from some vertices. -/
structure Recorded (T : Topology) (roots : Vertex → Prop) (run : Installation) : Prop where
  nodup : run.created.Nodup
  mem_iff : ∀ v, v ∈ run.created ↔ (run.routers v).isSome = true
  reached : ∀ v ∈ run.created, ∃ root path, roots root ∧ T.Path root path v

variable {roots : Vertex → Prop} {run run' : Installation}

theorem recorded_empty : Recorded T roots empty :=
  ⟨nodup_nil, by simp [empty], fun v hv => absurd hv not_mem_nil⟩

theorem Recorded.mono {roots' : Vertex → Prop} (h : Recorded T roots run)
    (hroots : ∀ v, roots v → roots' v) : Recorded T roots' run := by
  refine ⟨h.nodup, h.mem_iff, fun v hv => ?_⟩
  obtain ⟨root, path, hroot, hpath⟩ := h.reached v hv
  exact ⟨root, path, hroots root hroot, hpath⟩

theorem Recorded.create (h : Recorded T roots run) (hv : run.routers v = none)
    (hreach : ∃ root path, roots root ∧ T.Path root path v) : Recorded T roots (run.create v) := by
  refine ⟨?_, fun u => ?_, fun u hu => ?_⟩
  · refine nodup_append.mpr ⟨h.nodup, nodup_singleton v, ?_⟩
    rintro u hu w hw rfl
    rw [mem_singleton.mp hw, h.mem_iff, hv] at hu
    cases hu
  · rw [Installation.create, mem_append, h.mem_iff, mem_singleton]
    by_cases huv : u = v
    · simp [huv]
    · simp [huv]
  · rcases mem_append.mp hu with hu | hu
    · exact h.reached u hu
    · rw [mem_singleton.mp hu]
      exact hreach

theorem Recorded.addIncidency (h : Recorded T roots run) (v : Vertex)
    (link : Option FaceRef × Vertex) : Recorded T roots (run.addIncidency v link) := by
  refine ⟨h.nodup, fun u => ?_, h.reached⟩
  rw [Installation.addIncidency, isSome_addIncidency]
  exact h.mem_iff u

theorem Recorded.connect {link : Option FaceRef × Vertex} (h : Recorded T roots run)
    (hinst : ∀ run', inst link.2 run = some run' → Recorded T roots run')
    (hstep : connect inst v run link = some run') : Recorded T roots run' := by
  rw [Installation.connect] at hstep
  split at hstep
  · obtain ⟨next, hcall, hrun⟩ := bind_eq_some_iff.mp hstep
    cases hrun
    exact (hinst next hcall).addIncidency v link
  · cases hstep
    exact h.addIncidency v link

theorem Recorded.foldlM_connect {links : List (Option FaceRef × Vertex)}
    (hinst : ∀ link ∈ links, ∀ run run', Recorded T roots run → inst link.2 run = some run' →
      Recorded T roots run') (h : Recorded T roots run)
    (hloop : links.foldlM (Installation.connect inst v) run = some run') :
    Recorded T roots run' := by
  induction links generalizing run with
  | nil =>
    cases hloop
    exact h
  | cons link links ih =>
    rw [foldlM_cons] at hloop
    obtain ⟨next, hstep, hrest⟩ := bind_eq_some_iff.mp hloop
    have hnext := h.connect (fun run' => hinst link mem_cons_self run run' h) hstep
    exact ih (fun other hother => hinst other (mem_cons_of_mem link hother)) hnext hrest

/-- What a call creates can be reached from where it starts. -/
theorem Recorded.install (h : Recorded T roots run)
    (hreach : ∃ root path, roots root ∧ T.Path root path v)
    (hcall : install T fuel v run = some run') : Recorded T roots run' := by
  induction fuel generalizing v run run' with
  | zero => cases hcall
  | succ fuel ih =>
    rw [Installation.install] at hcall
    split at hcall
    · cases hcall
      exact h
    · rename_i hnone
      have hnone' : run.routers v = none := by simpa [isSome_iff_ne_none] using hnone
      refine Recorded.foldlM_connect (fun link hlink run run' hrun hrun' => ?_)
        (h.create hnone' hreach) hcall
      obtain ⟨root, path, hroot, hpath⟩ := hreach
      exact ih hrun ⟨root, path ++ [link.1], hroot, hpath.append (.cons hlink (.nil _))⟩ hrun'

/-! ### All calls -/

/-- The channel that a face is attached to. -/
def channelOf (T : Topology) (face : NodeFace) : Option ℕ :=
  match face.transport with
  | .netDevice (some nd) => T.deviceChannel nd
  | _ => none

/-- What is behind a face: the node on the other side of a channel of two devices, or the
channel. -/
def Behind (T : Topology) (n : ℕ) (link : Option FaceRef × Vertex) : Prop :=
  ∃ face ∈ T.faces n, link.1 = some ⟨n, face.id⟩ ∧ ∃ nd ch,
    face.transport = .netDevice (some nd) ∧ T.deviceChannel nd = some ch ∧
      (((T.devices ch).length = 2 ∧ ∃ otherSide ∈ T.devices ch, otherSide ≠ nd ∧
          link.2 = .node (T.deviceNode otherSide)) ∨
        ((T.devices ch).length ≠ 2 ∧ link.2 = .channel ch))

/-- A node has one incidency for each face that is attached to a channel, and a channel has one
for each device. -/
def OnePerAttachment (T : Topology) : Vertex → List (Option FaceRef × Vertex) → Prop
  | .node n, incidencies =>
      incidencies.map Prod.fst =
          ((T.faces n).filter fun face => (channelOf T face).isSome).map
            (fun face => some ⟨n, face.id⟩) ∧
        (incidencies.map Prod.fst).Nodup ∧ ∀ link ∈ incidencies, Behind T n link
  | .channel c, incidencies =>
      incidencies = (T.devices c).map fun dev => (none, .node (T.deviceNode dev))

theorem filter_ne_of_length_two {ds : List ℕ} (hlength : ds.length = 2) (hnodup : ds.Nodup) {d : ℕ}
    (hd : d ∈ ds) : ∃ other, (ds.filter fun e => e ≠ d) = [other] := by
  obtain ⟨x, y, rfl⟩ := length_eq_two.mp hlength
  have hne : x ≠ y := by simpa using hnodup
  rcases mem_cons.mp hd with rfl | hd
  · exact ⟨y, by simp [Ne.symm hne]⟩
  · rw [mem_singleton.mp hd]
    exact ⟨x, by simp [hne]⟩

theorem map_fst_faceLinks (T : Topology) (n : ℕ) (face : NodeFace) :
    (T.faceLinks n face).map Prod.fst =
      if (channelOf T face).isSome then [some ⟨n, face.id⟩] else [] := by
  cases htransport : face.transport with
  | other => simp [Topology.faceLinks, channelOf, htransport]
  | netDevice device =>
    cases device with
    | none => simp [Topology.faceLinks, channelOf, htransport]
    | some nd =>
      cases hch : T.deviceChannel nd with
      | none => simp [Topology.faceLinks, channelOf, htransport, hch]
      | some ch =>
        simp only [Topology.faceLinks, channelOf, htransport, hch]
        split
        · rename_i htwo
          obtain ⟨other, hother⟩ := filter_ne_of_length_two htwo (T.nodup_devices ch)
            (T.attached nd ch hch)
          rw [hother]
          rfl
        · rfl

theorem map_fst_links (T : Topology) (n : ℕ) :
    (T.links (.node n)).map Prod.fst =
      ((T.faces n).filter fun face => (channelOf T face).isSome).map
        fun face => some ⟨n, face.id⟩ := by
  rw [Topology.links]
  induction T.faces n with
  | nil => rfl
  | cons face faces ih =>
    rw [flatMap_cons, map_append, ih, map_fst_faceLinks, filter_cons]
    split <;> rfl

theorem onePerAttachment_links (T : Topology) (v : Vertex) : OnePerAttachment T v (T.links v) := by
  cases v with
  | channel c => rfl
  | node n =>
    refine ⟨map_fst_links T n, ?_, fun link hlink => ?_⟩
    · rw [map_fst_links]
      have hids := (T.nodup_faces n).of_map NodeFace.id
      refine (hids.filter _).map_on fun face hface face' hface' heq => ?_
      have hid : face.id = face'.id := congrArg FaceRef.id (some.inj heq)
      exact inj_on_of_nodup_map (T.nodup_faces n) (mem_of_mem_filter hface)
        (mem_of_mem_filter hface') hid
    · obtain ⟨face, hface, hmem⟩ := mem_flatMap.mp hlink
      obtain ⟨hfst, hbehind⟩ := Topology.mem_faceLinks hmem
      exact ⟨face, hface, hfst, hbehind⟩

/-- One router for each vertex that can be reached from the nodes, with its incidencies. -/
structure Exact (T : Topology) (nodes : List ℕ) (run : Installation) : Prop where
  nodup : run.created.Nodup
  mem_created : ∀ v, v ∈ run.created ↔ ∃ n ∈ nodes, ∃ path, T.Path (.node n) path v
  isSome : ∀ v, (run.routers v).isSome = true ↔ v ∈ run.created
  incidencies : ∀ v gr, run.routers v = some gr → OnePerAttachment T v gr.incidencies

theorem recorded_installNodes {nodes : List ℕ} (h : installNodes T fuel nodes = some run) :
    Recorded T (fun v => ∃ n ∈ nodes, v = .node n) run := by
  induction nodes using reverseRecOn generalizing run with
  | nil =>
    cases h
    exact recorded_empty
  | append_singleton nodes n ih =>
    rw [installNodes, foldlM_append] at h
    obtain ⟨run', hrun, hlast⟩ := bind_eq_some_iff.mp h
    have hroots : Recorded T (fun v => ∃ m ∈ nodes ++ [n], v = .node m) run' := by
      refine (ih hrun).mono fun v hv => ?_
      obtain ⟨m, hm, heq⟩ := hv
      exact ⟨m, mem_append_left _ hm, heq⟩
    exact hroots.install ⟨.node n, [], ⟨n, by simp, rfl⟩, .nil _⟩ ((bind_pure _).symm.trans hlast)

/-- Every vertex on a path from a router has one. -/
theorem isSome_of_path {routers : Routers} (h : Routers.Grown T (fun _ => none) routers)
    {u : Vertex} {path : List (Option FaceRef)} (hpath : T.Path u path v)
    (hu : (routers u).isSome = true) : (routers v).isSome = true := by
  induction hpath with
  | nil u => exact hu
  | @cons u w v link path hlink _ ih =>
    refine ih ?_
    rcases h.made u rfl with hnone | ⟨-, hlinks⟩
    · rw [hnone] at hu
      cases hu
    · exact hlinks (link, w) hlink

/-- The construction of the routing graph ends and is exact: one router for each node and channel
that can be reached, one incidency for each attachment. -/
theorem installNodes_exact (T : Topology) {nodes : List ℕ} (hnodes : ∀ n ∈ nodes, n < T.numNodes)
    {fuel : ℕ} (hfuel : T.vertices.length < fuel) :
    ∃ run, installNodes T fuel nodes = some run ∧ Exact T nodes run := by
  obtain ⟨depth, rfl⟩ := Nat.exists_eq_succ_of_ne_zero (Nat.ne_zero_of_lt hfuel)
  obtain ⟨run, hrun, hgrown, hsome⟩ := exists_installNodes (Nat.le_of_lt_succ hfuel) hnodes
  have hrecorded := recorded_installNodes hrun
  refine ⟨run, hrun, hrecorded.nodup, fun v => ?_, fun v => (hrecorded.mem_iff v).symm,
    fun v gr hgr => ?_⟩
  · constructor
    · intro hv
      obtain ⟨root, path, ⟨n, hn, rfl⟩, hpath⟩ := hrecorded.reached v hv
      exact ⟨n, hn, path, hpath⟩
    · rintro ⟨n, hn, path, hpath⟩
      exact (hrecorded.mem_iff v).mpr (isSome_of_path hgrown hpath (hsome n hn))
  · rcases hgrown.made v rfl with hnone | ⟨hmade, -⟩
    · rw [hnone] at hgr
      cases hgr
    · rw [hmade] at hgr
      cases hgr
      exact onePerAttachment_links T v

end Installation

/-- Three nodes on one channel, two of them also joined directly. -/
def Topology.lan : Topology where
  numNodes := 3
  numChannels := 2
  faces n := ((List.range 5).filter fun d => d % 3 = n).map fun d => ⟨256 + d, .netDevice (some d)⟩
  deviceNode d := d % 3
  deviceChannel d := if d < 3 then some 0 else if d < 5 then some 1 else none
  devices c := if c = 0 then [0, 1, 2] else if c = 1 then [3, 4] else []
  nodup_faces n := by
    rw [List.map_map]
    exact (List.nodup_range.filter _).map fun a b heq => by simpa using heq
  nodup_devices c := by
    split
    · decide
    · split
      · decide
      · exact List.nodup_nil
  attached d c h := by
    split at h
    · cases h
      rw [if_pos rfl]
      simp only [List.mem_cons, List.not_mem_nil, or_false]
      omega
    · split at h
      · cases h
        rw [if_neg (by decide), if_pos rfl]
        simp only [List.mem_cons, List.not_mem_nil, or_false]
        omega
      · cases h
  channel_lt d c h := by
    split at h
    · cases h
      decide
    · split at h
      · cases h
        decide
      · cases h
  node_lt d c _ := Nat.mod_lt d (by decide)

theorem Installation.installNodes_exact_lan :
    ∃ run, installNodes Topology.lan 6 [2, 0, 2] = some run ∧ Exact Topology.lan [2, 0, 2] run :=
  installNodes_exact Topology.lan (by decide) (by decide)

end ValProofs
