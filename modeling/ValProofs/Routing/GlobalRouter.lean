import ValProofs.Packet
import ValProofs.Routing.Topology

/-!
The routers that `GlobalRoutingHelper` aggregates to nodes and channels. `Install`
goes through the links of a node and installs what is behind them first, so that it
runs through the whole connected part, and comes back to vertices whose links it has
not all added yet. In the end each vertex has its links once, in order.
-/

namespace ValProofs

open Function List

structure GlobalRouter where
  incidencies : List (Option FaceRef × Vertex)
  localPrefixes : List Name
  deriving DecidableEq, Repr

/-- `GetObject<GlobalRouter>()` of each node and channel. -/
abbrev Routers := Vertex → Option GlobalRouter

def Routers.addIncidency (routers : Routers) (v : Vertex) (link : Option FaceRef × Vertex) :
    Routers :=
  Function.update routers v
    ((routers v).map fun gr => { gr with incidencies := gr.incidencies ++ [link] })

/-- The routers, and the vertices for which one was created, in the order of creation. -/
structure Installation where
  routers : Routers
  created : List Vertex

namespace Installation

def empty : Installation := ⟨fun _ => none, []⟩

/-- `CreateObject<GlobalRouter>` and `AggregateObject`. -/
def create (run : Installation) (v : Vertex) : Installation :=
  ⟨Function.update run.routers v (some ⟨[], []⟩), run.created ++ [v]⟩

def addIncidency (run : Installation) (v : Vertex) (link : Option FaceRef × Vertex) :
    Installation :=
  ⟨run.routers.addIncidency v link, run.created⟩

/-- The body of the loops of `Install`. -/
def connect (install : Vertex → Installation → Option Installation) (v : Vertex)
    (run : Installation) (link : Option FaceRef × Vertex) : Option Installation := do
  let run ← if (run.routers link.2).isNone then install link.2 run else some run
  return run.addIncidency v link

/-- `Install` of a node and of a channel, with calls that are nested at most `fuel` deep. -/
def install (T : Topology) : ℕ → Vertex → Installation → Option Installation
  | 0, _, _ => none
  | fuel + 1, v, run =>
      if (run.routers v).isSome then some run
      else (T.links v).foldlM (connect (install T fuel) v) (run.create v)

/-- Calls of `Install` for some nodes, one after the other. -/
def installNodes (T : Topology) (fuel : ℕ) (nodes : List ℕ) : Option Installation :=
  nodes.foldlM (fun run n => install T fuel (.node n) run) empty

end Installation

namespace Routers

/-- `InstallAll`. The calls are never nested deeper than there are vertices. -/
def installAll (T : Topology) : Routers :=
  (Installation.installNodes T (T.vertices.length + 1) (List.range T.numNodes)).elim
    (fun _ => none) Installation.routers

def addOrigin (routers : Routers) (name : Name) (n : ℕ) : Routers :=
  Function.update routers (.node n) ((routers (.node n)).map fun gr =>
    { gr with localPrefixes := gr.localPrefixes ++ [name] })

/-- `InstallAll`, and then a call of `AddOrigin` for each prefix and node. -/
def setup (T : Topology) (origins : List (Name × ℕ)) : Routers :=
  origins.foldl (fun routers origin => routers.addOrigin origin.1 origin.2) (installAll T)

/-! ### Install -/

/-- Routers that were there have not changed, and each new one has all its links and
routers behind them. -/
structure Grown (T : Topology) (routers routers' : Routers) : Prop where
  kept : ∀ u gr, routers u = some gr → routers' u = some gr
  made : ∀ u, routers u = none → routers' u = none ∨
    (routers' u = some ⟨T.links u, []⟩ ∧ ∀ link ∈ T.links u, (routers' link.2).isSome)

variable {T : Topology} {routers routers' routers'' : Routers}

theorem Grown.refl (T : Topology) (routers : Routers) : Grown T routers routers :=
  ⟨fun _ _ h => h, fun _ h => .inl h⟩

theorem Grown.isSome (h : Grown T routers routers') {u : Vertex} (hu : (routers u).isSome) :
    (routers' u).isSome := by
  obtain ⟨gr, hgr⟩ := Option.isSome_iff_exists.mp hu
  rw [h.kept u gr hgr]
  rfl

theorem Grown.trans (h : Grown T routers routers') (h' : Grown T routers' routers'') :
    Grown T routers routers'' := by
  refine ⟨fun u gr hu => h'.kept u gr (h.kept u gr hu), fun u hu => ?_⟩
  rcases h.made u hu with hnone | ⟨hsome, hlinks⟩
  · exact h'.made u hnone
  · exact .inr ⟨h'.kept u _ hsome, fun link hlink => h'.isSome (hlinks link hlink)⟩

variable {v : Vertex}

/-- The router of one vertex may be any other one. -/
theorem Grown.update {gr gr' : GlobalRouter} (h : Grown T (update routers v (some gr)) routers') :
    Grown T (update routers v (some gr')) (update routers' v (some gr')) := by
  refine ⟨fun u gr'' hu => ?_, fun u hu => ?_⟩
  · by_cases huv : u = v
    · subst huv
      rw [update_self] at hu ⊢
      exact hu
    · rw [update_of_ne huv] at hu ⊢
      exact h.kept u gr'' (by rw [update_of_ne huv, hu])
  · by_cases huv : u = v
    · subst huv
      rw [update_self] at hu
      cases hu
    · rw [update_of_ne huv] at hu ⊢
      refine (h.made u (by rw [update_of_ne huv, hu])).imp_right ?_
      rintro ⟨hsome, hlinks⟩
      refine ⟨hsome, fun link hlink => ?_⟩
      by_cases hlv : link.2 = v
      · rw [hlv, update_self]
        rfl
      · rw [update_of_ne hlv]
        exact hlinks link hlink

/-- How many vertices have no router yet. -/
def missing (T : Topology) (routers : Routers) : ℕ :=
  (T.vertices.filter fun v => (routers v).isNone).length

theorem Grown.missing_le (h : Grown T routers routers') :
    missing T routers' ≤ missing T routers := by
  refine (monotone_filter_right _ fun v hv => ?_).length_le
  cases hold : routers v with
  | none => rfl
  | some gr =>
    rw [h.kept v gr hold] at hv
    cases hv

theorem missing_update_lt (hv : v ∈ T.vertices) (hnone : routers v = none) (gr : GlobalRouter) :
    missing T (update routers v (some gr)) < missing T routers := by
  have hfilter : T.vertices.filter (fun u => (update routers v (some gr) u).isNone) =
      (T.vertices.filter fun u => (routers u).isNone).filter fun u => u ≠ v := by
    rw [filter_filter]
    refine filter_congr fun u _ => ?_
    by_cases huv : u = v
    · subst huv
      simp
    · simp [huv]
  rw [missing, missing, hfilter]
  refine length_filter_lt_length_iff_exists.mpr ⟨v, ?_, by simp⟩
  exact mem_filter.mpr ⟨hv, by rw [hnone]; rfl⟩

end Routers

namespace Installation

open Routers

variable {T : Topology} {routers : Routers} {v : Vertex} {run : Installation} {fuel : ℕ}

/-- The loop over the links of a vertex returns if the calls in it do. -/
theorem exists_foldlM_connect {inst : Vertex → Installation → Option Installation}
    (hinst : ∀ w ∈ T.vertices, ∀ run : Installation, missing T run.routers ≤ fuel →
      ∃ run', inst w run = some run' ∧ Grown T run.routers run'.routers ∧ (run'.routers w).isSome)
    (hfuel : ∀ gr, missing T (update routers v (some gr)) ≤ fuel)
    (todo : List (Option FaceRef × Vertex)) (htodo : ∀ link ∈ todo, link.2 ∈ T.vertices)
    (added : List (Option FaceRef × Vertex))
    (h : Grown T (update routers v (some ⟨added, []⟩)) run.routers)
    (hadded : ∀ link ∈ added, (run.routers link.2).isSome) :
    ∃ run', todo.foldlM (connect inst v) run = some run' ∧
      Grown T (update routers v (some ⟨added ++ todo, []⟩)) run'.routers ∧
      ∀ link ∈ added ++ todo, (run'.routers link.2).isSome := by
  induction todo generalizing added run with
  | nil =>
    rw [append_nil]
    exact ⟨run, rfl, h, hadded⟩
  | cons link todo ih =>
    -- What is behind the link is installed first.
    obtain ⟨next, hnext, hgrown, htarget⟩ : ∃ next : Installation,
        connect inst v run link = some (next.addIncidency v link) ∧
        Grown T run.routers next.routers ∧ (next.routers link.2).isSome := by
      rw [connect]
      split
      · obtain ⟨next, hcall, hnext⟩ := hinst link.2 (htodo link mem_cons_self) run
          (Nat.le_trans h.missing_le (hfuel _))
        exact ⟨next, by rw [hcall]; rfl, hnext⟩
      · rename_i hsome
        exact ⟨run, rfl, .refl T _, by simpa [Option.isSome_iff_ne_none] using hsome⟩
    have hv : next.routers v = some ⟨added, []⟩ := (h.trans hgrown).kept v _ (update_self ..)
    have hadd : (next.addIncidency v link).routers =
        update next.routers v (some ⟨added ++ [link], []⟩) := by
      rw [Installation.addIncidency, Routers.addIncidency, hv]
      rfl
    have hstays : ∀ u, (next.routers u).isSome →
        ((next.addIncidency v link).routers u).isSome := by
      intro u hu
      rw [hadd]
      by_cases huv : u = v
      · rw [huv, update_self]
        rfl
      · rw [update_of_ne huv]
        exact hu
    rw [foldlM_cons, hnext, append_cons]
    refine ih (fun l hl => htodo l (mem_cons_of_mem _ hl)) (added ++ [link]) ?_ ?_
    · rw [hadd]
      exact (h.trans hgrown).update
    · intro l hl
      rcases mem_append.mp hl with hl | hl
      · exact hstays _ (hgrown.isSome (hadded l hl))
      · rw [mem_singleton.mp hl]
        exact hstays _ htarget

/-- One call more than there are vertices without a router is enough. -/
theorem exists_install (hv : v ∈ T.vertices) (hfuel : missing T run.routers ≤ fuel) :
    ∃ run', install T (fuel + 1) v run = some run' ∧ Grown T run.routers run'.routers ∧
      (run'.routers v).isSome := by
  induction fuel generalizing v run with
  | zero =>
    have hsome : (run.routers v).isSome := by
      by_contra hnone
      have hmem : v ∈ T.vertices.filter fun u => (run.routers u).isNone :=
        mem_filter.mpr ⟨hv, by simpa [Option.isSome_iff_ne_none] using hnone⟩
      have := length_pos_of_mem hmem
      rw [missing] at hfuel
      omega
    exact ⟨run, if_pos hsome, .refl T _, hsome⟩
  | succ fuel ih =>
    rw [install]
    split
    · rename_i hsome
      exact ⟨run, rfl, .refl T _, hsome⟩
    · rename_i hnone
      have hnone' : run.routers v = none := by simpa [Option.isSome_iff_ne_none] using hnone
      have hless : ∀ gr, missing T (update run.routers v (some gr)) ≤ fuel := by
        intro gr
        have := missing_update_lt hv hnone' gr
        omega
      have hcreated : Grown T (run.create v).routers (run.create v).routers := .refl T _
      obtain ⟨run', hrun, hgrown, hlinks⟩ := exists_foldlM_connect
        (fun w hw run hrun => ih hw hrun) hless (T.links v)
        (fun link hlink => Topology.mem_vertices_of_mem_links hlink) [] hcreated (forall_mem_nil _)
      rw [nil_append] at hgrown hlinks
      have hself := hgrown.kept v _ (update_self ..)
      refine ⟨run', hrun, ⟨fun u gr hu => ?_, fun u hu => ?_⟩, by rw [hself]; rfl⟩
      · refine hgrown.kept u gr ?_
        rw [update_of_ne, hu]
        rintro rfl
        rw [hnone'] at hu
        cases hu
      · by_cases huv : u = v
        · subst huv
          exact .inr ⟨hself, hlinks⟩
        · exact hgrown.made u (by rw [update_of_ne huv, hu])

/-- The calls return, and the nodes have routers. -/
theorem exists_installNodes (hfuel : T.vertices.length ≤ fuel) {nodes : List ℕ}
    (hnodes : ∀ n ∈ nodes, n < T.numNodes) :
    ∃ run, installNodes T (fuel + 1) nodes = some run ∧ Grown T (fun _ => none) run.routers ∧
      ∀ n ∈ nodes, (run.routers (.node n)).isSome := by
  induction nodes using reverseRecOn with
  | nil => exact ⟨empty, rfl, .refl T _, forall_mem_nil _⟩
  | append_singleton nodes n ih =>
    obtain ⟨run, hrun, hgrown, hsome⟩ := ih fun m hm => hnodes m (mem_append_left _ hm)
    have hmem : Vertex.node n ∈ T.vertices := Topology.node_mem_vertices.mpr (hnodes n (by simp))
    obtain ⟨run', hcall, hstep, hself⟩ :=
      exists_install hmem (Nat.le_trans (length_filter_le ..) hfuel)
    refine ⟨run', ?_, hgrown.trans hstep, fun m hm => ?_⟩
    · rw [installNodes] at hrun
      rw [installNodes, foldlM_append, hrun]
      exact (bind_pure _).trans hcall
    · rcases mem_append.mp hm with hm | hm
      · exact hstep.isSome (hsome m hm)
      · rw [mem_singleton.mp hm]
        exact hself

end Installation

namespace Routers

variable {T : Topology} {routers : Routers}

theorem grown_installAll (T : Topology) :
    Grown T (fun _ => none) (installAll T) ∧
      ∀ n < T.numNodes, (installAll T (.node n)).isSome := by
  obtain ⟨run, hrun, hgrown, hsome⟩ := Installation.exists_installNodes (T := T) (Nat.le_refl _)
    fun n hn => mem_range.mp hn
  rw [installAll, hrun]
  exact ⟨hgrown, fun n hn => hsome n (mem_range.mpr hn)⟩

/-! ### Origins -/

/-- The routers after `InstallAll` and the calls of `AddOrigin`. -/
structure Installed (T : Topology) (origins : List (Name × ℕ)) (routers : Routers) : Prop where
  nodes : ∀ n < T.numNodes, (routers (.node n)).isSome
  incidencies : ∀ v gr, routers v = some gr → gr.incidencies = T.links v
  closed : ∀ v gr, routers v = some gr → ∀ link ∈ T.links v, (routers link.2).isSome
  prefixes : ∀ v gr, routers v = some gr → ∀ name,
    name ∈ gr.localPrefixes ↔ ∃ n, v = .node n ∧ (name, n) ∈ origins

theorem installed_installAll (T : Topology) : Installed T [] (installAll T) := by
  obtain ⟨hgrown, hnodes⟩ := grown_installAll T
  have hmade : ∀ v gr, installAll T v = some gr →
      gr = ⟨T.links v, []⟩ ∧ ∀ link ∈ T.links v, (installAll T link.2).isSome := by
    intro v gr hgr
    rcases hgrown.made v rfl with hnone | ⟨hsome, hlinks⟩
    · rw [hnone] at hgr
      cases hgr
    · rw [hsome] at hgr
      cases hgr
      exact ⟨rfl, hlinks⟩
  refine ⟨hnodes, fun v gr hgr => ?_, fun v gr hgr => (hmade v gr hgr).2, fun v gr hgr name => ?_⟩
  · rw [(hmade v gr hgr).1]
  · rw [(hmade v gr hgr).1]
    simp

theorem Installed.addOrigin {origins : List (Name × ℕ)} (h : Installed T origins routers)
    (name : Name) {n : ℕ} (hn : n < T.numNodes) :
    Installed T (origins ++ [(name, n)]) (routers.addOrigin name n) := by
  obtain ⟨gr₀, hgr₀⟩ := Option.isSome_iff_exists.mp (h.nodes n hn)
  have heq : routers.addOrigin name n = update routers (.node n)
      (some { gr₀ with localPrefixes := gr₀.localPrefixes ++ [name] }) := by
    rw [Routers.addOrigin, hgr₀]
    rfl
  have hstays : ∀ v, (routers v).isSome → (routers.addOrigin name n v).isSome := by
    intro v hv
    rw [heq]
    by_cases hvn : v = .node n
    · rw [hvn, update_self]
      rfl
    · rw [update_of_ne hvn]
      exact hv
  -- Only the prefixes of one router have changed.
  have hcases : ∀ v gr, routers.addOrigin name n v = some gr →
      ∃ old, routers v = some old ∧ gr.incidencies = old.incidencies ∧
        gr.localPrefixes = if v = .node n then old.localPrefixes ++ [name]
          else old.localPrefixes := by
    intro v gr hgr
    rw [heq] at hgr
    by_cases hvn : v = .node n
    · subst hvn
      rw [update_self] at hgr
      cases hgr
      exact ⟨gr₀, hgr₀, rfl, by rw [if_pos rfl]⟩
    · rw [update_of_ne hvn] at hgr
      exact ⟨gr, hgr, rfl, by rw [if_neg hvn]⟩
  refine ⟨fun m hm => hstays _ (h.nodes m hm), fun v gr hgr => ?_, fun v gr hgr link hlink => ?_,
    fun v gr hgr name' => ?_⟩
  · obtain ⟨old, hold, hinc, -⟩ := hcases v gr hgr
    rw [hinc, h.incidencies v old hold]
  · obtain ⟨old, hold, -, -⟩ := hcases v gr hgr
    exact hstays _ (h.closed v old hold link hlink)
  · obtain ⟨old, hold, -, hlocal⟩ := hcases v gr hgr
    have hprefixes := h.prefixes v old hold name'
    rw [hlocal]
    by_cases hvn : v = .node n
    · subst hvn
      rw [if_pos rfl, mem_append, hprefixes]
      simp
    · rw [if_neg hvn, hprefixes]
      constructor
      · rintro ⟨m, hm, hmem⟩
        exact ⟨m, hm, mem_append_left _ hmem⟩
      · rintro ⟨m, rfl, hmem⟩
        refine ⟨m, rfl, (mem_append.mp hmem).resolve_right fun hlast => hvn ?_⟩
        rw [(Prod.mk.inj (mem_singleton.mp hlast)).2]

theorem installed_setup (T : Topology) {origins : List (Name × ℕ)}
    (horigins : ∀ origin ∈ origins, origin.2 < T.numNodes) :
    Installed T origins (setup T origins) := by
  induction origins using reverseRecOn with
  | nil => exact installed_installAll T
  | append_singleton origins origin ih =>
    rw [setup, foldl_append, foldl_cons, foldl_nil]
    have hinit := ih fun o ho => horigins o (mem_append_left _ ho)
    exact hinit.addOrigin origin.1 (horigins origin (by simp))

end Routers

end ValProofs
