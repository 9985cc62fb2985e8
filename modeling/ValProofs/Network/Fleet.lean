import ValProofs.Network.Model
import ValProofs.Nfd.Provenance

/-!
Many whole nodes, each with its NFD on top of its VAL, that hear each other.

Seen through their VALs they are the nodes of a `Network`, so what holds there
under an arbitrary NFD holds here. And no packet comes from nowhere: whatever is
on the air or reaches an application has been handed in at some node.
-/

namespace ValProofs

open Lib ValForwarder Function List

namespace Fleet

variable {ι τ : Type}

/-- The packet is on the air. -/
def Sent (s : ι → Node τ) (sender : ι) (p : ℕ) (valP : ValPacket) : Prop :=
  ∃ outFaceId, .transmit p valP outFaceId ∈ (s sender).val.pending.log

/-- Nodes receive what some node has sent. -/
def guard (s : ι → Node τ) (e : ι × Node.Event) : Prop :=
  (s e.1).guard e.2 ∧ ∀ face valP, e.2 = .receive face valP → ∃ sender p, Sent s sender p valP

/-- An event is one of a node. -/
def system [DecidableEq ι] (P : ι → Platform τ) (g : ι → Geometry) :
    System (ι → Node τ) (ι × Node.Event) where
  init s := ∀ node, (s node).Init
  guard := guard
  next s e := update s e.1 ((s e.1).next (P e.1) (g e.1) e.2)

/-! ### As a network of forwarders -/

/-- VAL with what NFD gives it, and without the network. -/
def handedDown (g : Geometry) : System ValForwarder Event :=
  (machine g).restrict fun _ e => e.isReception = false

section Nfd

variable {P : Platform τ} {g : Geometry} {node node' : Node τ}

theorem run_single (v : ValForwarder) (e : Event) (hguard : v.guard e)
    (he : e.isReception = false) : ∃ es, (handedDown g).Run v es (v.next g e) :=
  ⟨[e], .single (M := handedDown g) ⟨hguard, he⟩⟩

theorem run_same {v v' : ValForwarder} (h : v' = v) : ∃ es, (handedDown g).Run v es v' := by
  rw [h]
  exact ⟨[], .nil v⟩

theorem run_of_handled {inFace : ℕ} {data : Data} (h : node.Handled P g inFace data node') :
    ∃ es, (handedDown g).Run node.val es node'.val := by
  cases h with
  | dropped _ _ _ hval => exact run_same hval
  | unsolicited _ isProducer _ _ hval =>
    rw [hval]
    exact run_single node.val (.dataFromNfd inFace _ none isProducer) (fun _ => rfl) rfl
  | satisfied _ _ _ hval =>
    rw [hval]
    refine foldlRecOn (motive := fun s : ValForwarder × Data =>
      ∃ es, (handedDown g).Run node.val es s.1) _ _ (run_same rfl) fun s hs notice _ => ?_
    obtain ⟨es, hrun⟩ := hs
    obtain ⟨es', hrun'⟩ := run_single s.1 (g := g) (.dataFromNfd notice.faceId (notice.mark s.2)
      (some notice.nonceList) notice.isProducer) nofun rfl
    exact ⟨_, hrun.append hrun'⟩

theorem run_of_asked {inFace : ℕ} {interest : Interest} (h : node.Asked P g inFace interest node') :
    ∃ es, (handedDown g).Run node.val es node'.val := by
  cases h with
  | ignored _ _ hval => exact run_same hval
  | hit hint data _ _ _ _ hval =>
    rcases hval with hval | ⟨-, geoface, hval⟩
    · exact run_same hval
    · rw [hval]
      exact run_single node.val (.dataFromNfd geoface data _ false) nofun rfl
  | missed hint _ _ _ hval =>
    rcases hval with hval | ⟨geoface, i, hval⟩
    · exact run_same hval
    · rw [hval]
      exact run_single node.val (.interestFromNfd geoface i) trivial rfl

/-- NFD on what VAL has received. -/
theorem run_received (P : Platform τ) (g : Geometry) (node : Node τ) (face : ℕ)
    (valP : ValPacket) : ∃ es, (handedDown g).Run (node.val.onReceivedValPacket face valP).1 es
      (node.next P g (.receive face valP)).val := by
  simp only [Node.next, Node.onReceivedValPacket]
  cases node.val.onReceivedValPacket face valP with
  | mk v packet =>
    cases packet with
    | none => exact run_same rfl
    | some packet =>
      cases packet with
      | interest geoface i => exact run_of_asked (Node.asked P g { node with val := v } geoface i)
      | data geoface d => exact run_of_handled (Node.handled P g { node with val := v } geoface d)

/-- Apart from receptions. -/
theorem run_act {e : Node.Event} (hguard : node.guard e)
    (he : ∀ face valP, e ≠ .receive face valP) :
    ∃ es, (handedDown g).Run node.val es (node.next P g e).val := by
  cases e with
  | receive face valP => exact absurd rfl (he face valP)
  | incomingInterest face interest => exact run_of_asked (node.asked P g face interest)
  | incomingData face data => exact run_of_handled (node.handled P g face data)
  | incomingNack face interest =>
    obtain ⟨id, huntouched⟩ := node.untouched_onIncomingNack face interest
    exact run_same huntouched.val
  | interestFinalize id => exact run_same (node.onInterestFinalize_spec P id).1
  | elapse | addRoute => exact run_same rfl
  | fire id => exact run_single node.val (.fire id) hguard rfl
  | addFace face => exact run_single node.val (.addFace face) trivial rfl
  | move mobility => exact run_single node.val (.move mobility) trivial rfl

end Nfd

variable [DecidableEq ι] {P : ι → Platform τ} {g : ι → Geometry} {s : ι → Node τ}

/-- What NFD gives to a VAL is a run of the network. -/
theorem exists_run_network (net : Network ι) {node : ι} {es : List Event} {v : ValForwarder}
    (h : (handedDown (g node)).Run (net.nodes node) es v) :
    ∃ es net', (Network.system g).Run net es net' ∧ net'.nodes = update net.nodes node v := by
  generalize hv : net.nodes node = v₀ at h
  induction h with
  | nil => exact ⟨[], net, .nil net, by rw [← hv, update_eq_self]⟩
  | @snoc v' _ e _ hguard ih =>
    obtain ⟨es, net', hrun, hnodes⟩ := ih
    have hnode : net'.nodes node = v' := by rw [hnodes, update_self]
    have hact : (Network.system g).guard net' (.act node e) :=
      ⟨hguard.2, by rw [hnode]; exact hguard.1⟩
    refine ⟨_, _, hrun.snoc hact, ?_⟩
    have hnext := net'.nodes_next g (.act node e)
    simp only [Network.Event.node, Network.Event.local, hnode] at hnext
    rw [hnodes, update_idem] at hnext
    exact hnext

/-- Seen through the VALs, every run of whole nodes is a run of forwarders that
hear each other. -/
theorem exists_network (h : (system P g).Reachable s) :
    ∃ net : Network ι, (Network.system g).Reachable net ∧
      net.nodes = fun node => (s node).val := by
  refine h.invariant (I := fun s => ∃ net : Network ι, (Network.system g).Reachable net ∧
    net.nodes = fun node => (s node).val) ?_ ?_
  · intro s hinit
    refine ⟨⟨fun node => (s node).val, fun _ _ => none, fun _ _ => none⟩,
      .of_init ⟨fun node => ?_, fun _ _ => rfl, fun _ _ => rfl⟩, rfl⟩
    obtain ⟨faces, mobility, store, face, hface, -, heq⟩ := hinit node
    exact ⟨faces, mobility, face, hface, congrArg Node.val heq⟩
  · rintro s ⟨node, e⟩ ⟨net, hreach, hnodes⟩ ⟨hlocal, hsent⟩
    -- VAL hears the packet, if the event is a reception, and NFD does the rest.
    have hheard : ∃ net' v, (Network.system g).Reachable net' ∧
        net'.nodes = update net.nodes node v ∧
        ∃ es, (handedDown (g node)).Run v es ((s node).next (P node) (g node) e).val := by
      by_cases he : ∃ face valP, e = .receive face valP
      · obtain ⟨face, valP, rfl⟩ := he
        obtain ⟨sender, p, hair⟩ := hsent face valP rfl
        have hhear : (Network.system g).guard net (.hear node face sender p valP) :=
          ⟨by rw [Network.Sent, hnodes]; exact hair, by rw [hnodes]; exact hlocal⟩
        refine ⟨_, _, hreach.next hhear, net.nodes_next g _, ?_⟩
        rw [hnodes]
        exact run_received (P node) (g node) (s node) face valP
      · refine ⟨net, _, hreach, (update_eq_self node net.nodes).symm, ?_⟩
        rw [hnodes]
        exact run_act hlocal fun face valP heq => he ⟨face, valP, heq⟩
    obtain ⟨net', v, hreach', hnodes', es, hrun⟩ := hheard
    have hnode : net'.nodes node = v := by rw [hnodes', update_self]
    obtain ⟨es', net'', hnet, hnodes''⟩ := exists_run_network net' (hnode ▸ hrun)
    refine ⟨net'', hreach'.run hnet, ?_⟩
    rw [hnodes'', hnodes', update_idem, hnodes]
    funext i
    exact (apply_update (fun _ => Node.val) s node _ i).symm

/-! ### Where packets come from -/

/-- A node runs as it would alone. -/
theorem reachable_node (h : (system P g).Reachable s) (node : ι) :
    (Node.system (P node) (g node)).Reachable (s node) := by
  refine h.simulate (N := Node.system (P node) (g node)) (fun s : ι → Node τ => s node)
    (fun s hinit => hinit node) fun s e hguard => ?_
  show ∃ es, (Node.system _ _).Run _ es (update s e.1 _ node)
  by_cases hnode : node = e.1
  · subst hnode
    rw [update_self]
    exact ⟨[e.2], .single (M := Node.system _ _) hguard.1⟩
  · rw [update_of_ne hnode]
    exact ⟨[], .nil _⟩

/-- The packets that the events bring in from the nodes' own faces. -/
def handedIn (es : List (ι × Node.Event)) : Set Payload :=
  { p | ∃ e ∈ es, ∃ q, e.2.handed = some q ∧ q.core = p }

/-- Whatever is on the air, and whatever a node has given to one of its own
faces, has been handed in at some node, with the same name, nonce and selectors if
it is an Interest, and the same name, content and signature if it is a Data. -/
theorem nothing_made_up {contents : ι → τ → Set Data}
    (hP : ∀ node, (P node).Caches (contents node)) {s₀ : ι → Node τ}
    (hinit : ∀ node, (s₀ node).Init) (hempty : ∀ node, contents node (s₀ node).store = ∅)
    {es : List (ι × Node.Event)} (hrun : (system P g).Run s₀ es s) :
    (∀ sender p valP, Sent s sender p valP → valP.payload.core ∈ handedIn es) ∧
      ∀ node, ∀ sent ∈ (s node).sent, sent.payload.core ∈ handedIn es := by
  have htraced : ∀ {es s}, (system P g).Run s₀ es s → ∀ node, (s node).val.Traced :=
    fun hrun node => traced_of_reachable
      (Node.val_reachable (reachable_node ⟨s₀, _, hinit, hrun⟩ node))
  have hknows : ∀ node, Node.Knows (handedIn es) (contents node) (s node) := by
    induction hrun with
    | nil =>
      intro node
      obtain ⟨faces, mobility, store, face, -, -, heq⟩ := hinit node
      refine ⟨?_, fun d hd => absurd (hempty node ▸ hd) (Set.notMem_empty d), ?_⟩ <;>
      · rw [heq]
        exact fun _ h => nomatch h
    | @snoc s es e hrun hguard ih =>
      have hmono : ∀ node, Node.Knows (handedIn (es ++ [e])) (contents node) (s node) :=
        fun node => (ih node).mono fun p ⟨e', he', hp⟩ => ⟨e', mem_append_left _ he', hp⟩
      intro node
      show Node.Knows _ _ (update s e.1 _ node)
      by_cases hnode : node = e.1
      · subst hnode
        rw [update_self]
        refine (hmono e.1).next (hP e.1) (g e.1) ?_ fun face valP he => ?_
        · exact fun q hq => ⟨e, mem_append_right _ (mem_singleton.mpr rfl), q, hq, rfl⟩
        · obtain ⟨sender, p, outFaceId, hlog⟩ := hguard.2 face valP he
          exact (hmono sender).transmitted (htraced hrun sender) hlog
      · rw [update_of_ne hnode]
        exact hmono node
  refine ⟨fun sender p valP hsent => ?_, fun node => (hknows node).sent⟩
  obtain ⟨outFaceId, hlog⟩ := hsent
  exact (hknows sender).transmitted (htraced hrun sender) hlog

/-! ### One vehicle asks, and another one hears it -/

def asked : ValPacket := (fresh.doAfterIfntMiss 256 sampleInterest).valPkt

def asking : List (Bool × Node.Event) :=
  [(false, .addFace makeAppFace), (false, .incomingInterest 258 sampleInterest),
    (false, .fire 0), (true, .receive 257 asked)]

/-- Both vehicles and their platforms are alike. -/
def twoVehicles : System (Bool → Node Unit) (Bool × Node.Event) :=
  system (fun _ => Node.samplePlatform) fun _ => flatGeometry

def afterAsking : Bool → Node Unit := asking.foldl twoVehicles.next fun _ => Node.freshNode

theorem asked_on_air :
    Sent ((asking.take 3).foldl twoVehicles.next fun _ => Node.freshNode) false 0 asked :=
  ⟨257, mem_singleton.mpr rfl⟩

theorem asking_run : twoVehicles.Run (fun _ => Node.freshNode) asking afterAsking := by
  refine .snoc (.snoc (.snoc (.snoc (.nil _) ?_) ?_) ?_) ?_
  · exact And.intro rfl nofun
  · exact And.intro ⟨makeAppFace, rfl, rfl⟩ nofun
  · exact And.intro ⟨⟨.forwarding, 0, 257, 0⟩, EventQueue.callback?_eq_some.mp rfl⟩ nofun
  · refine And.intro (mem_singleton.mpr rfl) fun _ _ h => ?_
    cases h
    exact ⟨false, 0, asked_on_air⟩

theorem exists_network_afterAsking :
    ∃ net : Network Bool, (Network.system fun _ => flatGeometry).Reachable net ∧
      net.nodes = fun node => (afterAsking node).val :=
  exists_network ⟨_, _, fun _ => ⟨_, _, (), netFace, rfl, rfl, rfl⟩, asking_run⟩

theorem nothing_made_up_afterAsking : asked.payload.core ∈ handedIn asking := by
  have hcaches : Node.samplePlatform.Caches fun _ => ∅ :=
    ⟨fun _ _ _ => nofun, fun _ _ => Set.Subset.rfl, fun _ _ => Set.empty_subset _,
      fun _ _ _ => Set.Subset.rfl⟩
  exact (nothing_made_up (fun _ => hcaches) (fun _ => ⟨_, _, (), netFace, rfl, rfl, rfl⟩)
    (fun _ => rfl) asking_run).1 false 0 asked asked_on_air

end Fleet

end ValProofs
