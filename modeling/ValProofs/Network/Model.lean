import ValProofs.Val.Hops
import ValProofs.Val.Timers

/-!
Many nodes that run the forwarder and hear each other.

A packet that some node has sent may be heard by any node, at any later time,
any number of times or never, so every topology, loss, duplication and
reordering is among the runs. What NFD hands down at a node is arbitrary.

Two ghosts record who has heard whom: the transmission whose reception made an
IFNT entry, and, when that entry is used for a relay, the relay's predecessor.
A transmission is named by its node and the address of its PFT entry.
-/

namespace ValProofs

open Lib Pft ValForwarder Function

structure Network (ι : Type) where
  nodes : ι → ValForwarder
  source : ι → Ifnt.Entry → Option (ι × ℕ)
  predecessor : ι → ℕ → Option (ι × ℕ)

namespace Network

variable {ι : Type}

inductive Event (ι : Type)
  /-- The node hears a packet that `sender` has sent from its entry `p`. -/
  | hear (node : ι) (face : ℕ) (sender : ι) (p : ℕ) (valP : ValPacket)
  /-- Anything else that happens at the node. -/
  | act (node : ι) (e : ValForwarder.Event)

/-- The packet is on the air. -/
def Sent (net : Network ι) (sender : ι) (p : ℕ) (valP : ValPacket) : Prop :=
  ∃ outFaceId, .transmit p valP outFaceId ∈ (net.nodes sender).pending.log

/-- The IFNT entry that the last call of the strategy relayed, if this created
the object `p`. -/
def relayedEntry (v : ValForwarder) (p : ℕ) : Option Ifnt.Entry :=
  match v.calls.getLast? with
  | some ⟨.ifntHit entry _, _, some q⟩ => if q = p then some entry else none
  | _ => none

theorem relayedEntry_strategy {u : ValForwarder} {g : Geometry} {inGeoface : ℕ}
    {entry : Ifnt.Entry} {i : Interest} {p : ℕ}
    (h : (register u.pending
      (u.sentBy g inGeoface (.ifntHit entry i))).2 = some p) :
    relayedEntry (u.strategy g inGeoface (.ifntHit entry i)) p = some entry := by
  simp [relayedEntry, strategy, sendValPacket, h]

def guard (net : Network ι) : Event ι → Prop
  | .hear node face sender p valP =>
      net.Sent sender p valP ∧ (net.nodes node).guard (.receive face valP)
  | .act node e => e.isReception = false ∧ (net.nodes node).guard e

def Init (net : Network ι) : Prop :=
  (∀ node, (net.nodes node).Init) ∧ (∀ node entry, net.source node entry = none) ∧
    ∀ node p, net.predecessor node p = none

/-- The node at which it happens. -/
def Event.node : Event ι → ι
  | .hear node _ _ _ _ => node
  | .act node _ => node

/-- What it is for the node itself. -/
def Event.local : Event ι → ValForwarder.Event
  | .hear _ face _ _ valP => .receive face valP
  | .act _ e => e

variable {net : Network ι}

theorem guard_local {e : Event ι} (h : net.guard e) : (net.nodes e.node).guard e.local := by
  cases e with
  | hear | act => exact h.2

variable [DecidableEq ι]

def hear (net : Network ι) (node : ι) (face : ℕ) (sender : ι) (p : ℕ) (valP : ValPacket) :
    Network ι :=
  let v := net.nodes node
  let v' := (v.onReceivedValPacket face valP).1
  { net with
    nodes := Function.update net.nodes node v'
    source := Function.update net.source node fun entry =>
      if entry ∈ v'.ifnt ∧ entry ∉ v.ifnt then some (sender, p) else net.source node entry }

def act (g : ι → Geometry) (net : Network ι) (node : ι) (e : ValForwarder.Event) :
    Network ι :=
  let v := net.nodes node
  let v' := v.next (g node) e
  { net with
    nodes := Function.update net.nodes node v'
    predecessor := Function.update net.predecessor node fun p =>
      if p < v.pending.nextPtr then net.predecessor node p
      else (relayedEntry v' p).bind (net.source node) }

def next (g : ι → Geometry) (net : Network ι) : Event ι → Network ι
  | .hear node face sender p valP => net.hear node face sender p valP
  | .act node e => net.act g node e

def system (g : ι → Geometry) : System (Network ι) (Event ι) where
  init := Init
  guard := guard
  next := next g

/-! ### Nodes and their network -/

theorem nodes_next (g : ι → Geometry) (net : Network ι) (e : Event ι) :
    (net.next g e).nodes =
      update net.nodes e.node ((net.nodes e.node).next (g e.node) e.local) := by
  cases e <;> rfl

/-- A node of a network runs as it would alone. -/
theorem reachable_node {g : ι → Geometry} (h : (system g).Reachable net) (node : ι) :
    (machine (g node)).Reachable (net.nodes node) := by
  refine h.simulate (N := machine (g node)) (fun net : Network ι =>
    net.nodes node) ?_ ?_
  · exact fun net hinit => hinit.1 node
  · intro net e hguard
    show ∃ es, (machine (g node)).Run (net.nodes node) es
      ((net.next g e).nodes node)
    rw [nodes_next]
    by_cases hnode : node = e.node
    · subst hnode
      rw [update_self]
      exact ⟨_, .single (M := machine (g e.node)) (guard_local hguard)⟩
    · rw [update_of_ne hnode]
      exact ⟨[], .nil _⟩

/-- Objects of the old network are still there, with their packets. -/
def Grows (net net' : Network ι) : Prop :=
  ∀ node p, p < (net.nodes node).pending.nextPtr →
    p < (net'.nodes node).pending.nextPtr ∧
      ((net'.nodes node).pending.heap p).valPkt = ((net.nodes node).pending.heap p).valPkt

theorem grows_next {g : ι → Geometry} (h : (system g).Reachable net) {e : Event ι}
    (hguard : net.guard e) : Grows net (net.next g e) := by
  intro node p hp
  rw [nodes_next]
  by_cases hnode : node = e.node
  · subst hnode
    rw [update_self]
    have hsound := sound_of_reachable (reachable_node h e.node)
    have hchanges := (hsound.changes (g := g e.node) (guard_local hguard)).1
    exact ⟨Nat.lt_of_lt_of_le hp hchanges.nextPtr_le, hchanges.valPkt_eq hp⟩
  · rw [update_of_ne hnode]
    exact ⟨hp, rfl⟩

end Network

end ValProofs
