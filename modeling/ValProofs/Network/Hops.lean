import ValProofs.Network.Model

/-!
Hop counts in a network. Every hop count on the air can be traced back, through
the entry that was relayed, to the transmission that was heard, so an Interest
loses one hop at each relay from the nine it starts with, and the hop counts
that replies are computed from have come down the same way.

The bounds hold up to the first reply that is built from an empty list of IFNT
entries.
-/

namespace ValProofs

open Lib Pft ValForwarder Function List

namespace Network

variable {ι : Type}

/-- No reply has been built from an empty list. -/
def Defined (net : Network ι) : Prop :=
  ∀ node, ∀ call ∈ (net.nodes node).calls, ValForwarder.HasRecipient call.call

/-! ### What is kept -/

/-- The object holds an Interest with this nonce and hop count. -/
structure Registered (net : Network ι) (node : ι) (p : ℕ) (nonce : Nonce) (hopC : ℕ) :
    Prop where
  allocated : p < (net.nodes node).pending.nextPtr
  interest : ∃ i, ((net.nodes node).pending.heap p).valPkt.payload = .interest i ∧
    i.nonce = nonce
  hopC_eq : ((net.nodes node).pending.heap p).valPkt.hopC.toNat = hopC
  pos : 1 ≤ hopC
  le : hopC ≤ 9

/-- What a call of the strategy puts into the header. -/
def WithinBounds (g : Geometry) (out : Outgoing) : StrategyCall → Prop
  | .ifntMiss interest =>
      out.valPkt.payload = .interest interest ∧ out.valPkt.hopC.toNat = 9
  | .ifntHit ifntEntry interest =>
      out.valPkt.payload = .interest interest ∧
        out.valPkt.hopC.toNat = ifntEntry.hopC.toNat ∧
        1 ≤ ifntEntry.hopC.toNat ∧ ifntEntry.hopC.toNat ≤ 8
  | .dfntHit _ _ data =>
      out.valPkt.payload = .data data ∧ 1 ≤ out.valPkt.hopC.toNat ∧
        out.valPkt.hopC.toNat ≤ 9
  | .dfntMiss data ifntEntries _ =>
      out.valPkt.payload = .data data ∧
        (ValForwarder.getLongestJorney g.pastTheEnd ifntEntries).1.toNat ≤ 8 ∧
        out.valPkt.hopC.toNat =
          10 - (ValForwarder.getLongestJorney g.pastTheEnd ifntEntries).1.toNat

/-- What holds of a node `v` of the network, given its two ghosts. -/
structure BoundsAt (net : Network ι) (g : Geometry) (v : ValForwarder)
    (source : Ifnt.Entry → Option (ι × ℕ)) (predecessor : ℕ → Option (ι × ℕ)) : Prop where
  ifnt : ∀ entry ∈ v.ifnt, ∃ k q, source entry = some (k, q) ∧
    net.Registered k q entry.nonce (entry.hopC.toNat + 1)
  dfnt : ∀ entry ∈ v.dfnt, entry.hopC.toNat ≤ 9
  calls : ∀ call ∈ v.calls, ∀ out, call.sent = some out → WithinBounds g out call.call
  linked : ∀ call ∈ v.calls, ∀ entry i p, call.call = .ifntHit entry i →
    call.created = some p → ∃ k q, predecessor p = some (k, q) ∧
      net.Registered k q i.nonce (entry.hopC.toNat + 1)

def Bounds (g : ι → Geometry) (net : Network ι) : Prop :=
  ∀ node, net.BoundsAt (g node) (net.nodes node) (net.source node) (net.predecessor node)

variable {node : ι} {p hopC : ℕ} {nonce : Nonce}

theorem Registered.grows {net net' : Network ι} (h : net.Registered node p nonce hopC)
    (hgrows : Grows net net') : net'.Registered node p nonce hopC := by
  obtain ⟨hlt, hpkt⟩ := hgrows node p h.allocated
  exact ⟨hlt, hpkt ▸ h.interest, hpkt ▸ h.hopC_eq, h.pos, h.le⟩

variable {out : Outgoing} {call : StrategyCall} {i : Interest}

theorem WithinBounds.interest {g : Geometry} (h : WithinBounds g out call)
    (hpay : out.valPkt.payload = .interest i) :
    1 ≤ out.valPkt.hopC.toNat ∧ out.valPkt.hopC.toNat ≤ 9 := by
  cases call with
  | ifntMiss interest =>
    obtain ⟨-, hhop⟩ := h
    omega
  | ifntHit ifntEntry interest =>
    obtain ⟨-, hhop, hpos, hle⟩ := h
    omega
  | dfntHit dfntEntry ifntEntries data | dfntMiss data ifntEntries isProducer =>
    rw [h.1] at hpay
    cases hpay

theorem WithinBounds.data {g : Geometry} (h : WithinBounds g out call) {d : Data}
    (hpay : out.valPkt.payload = .data d) :
    1 ≤ out.valPkt.hopC.toNat ∧ out.valPkt.hopC.toNat ≤ 10 := by
  cases call with
  | ifntMiss interest | ifntHit ifntEntry interest =>
    rw [h.1] at hpay
    cases hpay
  | dfntHit dfntEntry ifntEntries data =>
    obtain ⟨-, hpos, hle⟩ := h
    omega
  | dfntMiss data ifntEntries isProducer =>
    obtain ⟨-, hmin, hhop⟩ := h
    omega

variable {v : ValForwarder} {source : Ifnt.Entry → Option (ι × ℕ)}
  {predecessor : ℕ → Option (ι × ℕ)}

theorem BoundsAt.grows {net net' : Network ι} {g : Geometry}
    (h : net.BoundsAt g v source predecessor) (hgrows : Grows net net') :
    net'.BoundsAt g v source predecessor where
  ifnt entry hentry := by
    obtain ⟨k, q, hsource, hreg⟩ := h.ifnt entry hentry
    exact ⟨k, q, hsource, hreg.grows hgrows⟩
  dfnt := h.dfnt
  calls := h.calls
  linked call hcall entry i p hhit hcreated := by
    obtain ⟨k, q, hpred, hreg⟩ := h.linked call hcall entry i p hhit hcreated
    exact ⟨k, q, hpred, hreg.grows hgrows⟩

variable {valP : ValPacket}

/-- A packet on the air comes from a recorded call of the strategy. -/
theorem Bounds.exists_call {g : ι → Geometry} {net : Network ι} (h : Bounds g net)
    (htraced : (net.nodes node).Traced) (hsent : net.Sent node p valP) :
    p < (net.nodes node).pending.nextPtr ∧
      ((net.nodes node).pending.heap p).valPkt = valP ∧
      ∃ call ∈ (net.nodes node).calls, ∃ out, call.created = some p ∧
        out.valPkt = valP ∧ WithinBounds (g node) out call.call := by
  obtain ⟨outFaceId, hlog⟩ := hsent
  obtain ⟨hlt, hvalP⟩ := htraced.accounted.log p valP outFaceId hlog
  obtain ⟨call, hcall, hcreated⟩ := htraced.complete p hlt
  obtain ⟨-, out, hout, hpkt⟩ := htraced.created call hcall p hcreated
  exact ⟨hlt, hvalP.symm, call, hcall, out, hcreated, hpkt.symm.trans hvalP.symm,
    (h node).calls call hcall out hout⟩

theorem Bounds.interest {g : ι → Geometry} {net : Network ι} (h : Bounds g net)
    (htraced : (net.nodes node).Traced) (hsent : net.Sent node p valP)
    (hpay : valP.payload = .interest i) : net.Registered node p i.nonce valP.hopC.toNat := by
  obtain ⟨hlt, hheap, call, -, out, -, rfl, hwithin⟩ := h.exists_call htraced hsent
  obtain ⟨hpos, hle⟩ := hwithin.interest hpay
  exact ⟨hlt, ⟨i, hheap ▸ hpay, rfl⟩, hheap ▸ rfl, hpos, hle⟩

theorem Bounds.data {g : ι → Geometry} {net : Network ι} (h : Bounds g net)
    (htraced : (net.nodes node).Traced) (hsent : net.Sent node p valP) {d : Data}
    (hpay : valP.payload = .data d) : 1 ≤ valP.hopC.toNat ∧ valP.hopC.toNat ≤ 10 := by
  obtain ⟨-, -, call, -, out, -, rfl, hwithin⟩ := h.exists_call htraced hsent
  exact hwithin.data hpay

/-! ### Hearing -/

theorem toNat_make_ifnt {net : Network ι} {sender : ι}
    (h : net.Registered sender p i.nonce valP.hopC.toNat) (face : ℕ) :
    (Ifnt.Entry.make valP.valHeader i face).hopC.toNat + 1 = valP.hopC.toNat := by
  have hpos := h.pos
  have hsub : (Ifnt.Entry.make valP.valHeader i face).hopC.toNat = valP.hopC.toNat - 1 :=
    toNat_sub_one (ne_zero_of_toNat_pos hpos)
  omega

theorem toNat_make_dfnt (h : 1 ≤ valP.hopC.toNat) (d : Data) (face : ℕ) :
    (Dfnt.Entry.make valP.valHeader d face).hopC.toNat + 1 = valP.hopC.toNat := by
  have hsub : (Dfnt.Entry.make valP.valHeader d face).hopC.toNat = valP.hopC.toNat - 1 :=
    toNat_sub_one (ne_zero_of_toNat_pos h)
  omega

/-- A new IFNT entry gets the transmission that was heard as its source. -/
theorem BoundsAt.received {net : Network ι} {g : Geometry} {v' : ValForwarder}
    (h : net.BoundsAt g v source predecessor) {face : ℕ} {sender : ι}
    (hinterest : ∀ i, valP.payload = .interest i →
      net.Registered sender p i.nonce valP.hopC.toNat)
    (hdata : ∀ d, valP.payload = .data d → 1 ≤ valP.hopC.toNat ∧ valP.hopC.toNat ≤ 10)
    (hrec : Received v face valP v') :
    net.BoundsAt g v' (fun entry => if entry ∈ v'.ifnt ∧ entry ∉ v.ifnt then some (sender, p)
      else source entry) predecessor := by
  have hold : ∀ entry ∈ v.ifnt, ∃ k q,
      (if entry ∈ v'.ifnt ∧ entry ∉ v.ifnt then some (sender, p) else source entry) =
        some (k, q) ∧ net.Registered k q entry.nonce (entry.hopC.toNat + 1) := by
    intro entry hentry
    rw [if_neg fun hnew => hnew.2 hentry]
    exact h.ifnt entry hentry
  cases hrec with
  | dropped => exact ⟨hold, h.dfnt, h.calls, h.linked⟩
  | interest i faces f2a _ hpay hnew _ =>
    refine ⟨fun entry hentry => ?_, h.dfnt, h.calls, h.linked⟩
    rcases mem_append.mp hentry with hentry' | hentry'
    · exact hold entry hentry'
    · obtain rfl := mem_singleton.mp hentry'
      have hreg := hinterest i hpay
      refine ⟨sender, p, if_pos ⟨hentry, hnew⟩, ?_⟩
      rw [toNat_make_ifnt hreg]
      exact hreg
  | again => exact ⟨hold, h.dfnt, h.calls, h.linked⟩
  | data d faces f2a _ hpay _ =>
    refine ⟨hold, fun entry hentry => ?_, h.calls, h.linked⟩
    rcases mem_cons.mp hentry with rfl | hentry
    · obtain ⟨hpos, hle⟩ := hdata d hpay
      have := toNat_make_dfnt hpos d face
      omega
    · exact h.dfnt entry hentry
  | invalid => exact ⟨hold, h.dfnt, h.calls, h.linked⟩

/-! ### Acting -/

/-- The strategy computes a hop count within the bounds from entries that keep
them. -/
theorem BoundsAt.withinBounds {net : Network ι} {g : Geometry} {u : ValForwarder}
    (h : net.BoundsAt g v source predecessor) {inGeoface : ℕ} (hdrawn : v.Drawn call)
    (hrec : HasRecipient call) (hsent : u.sentBy g inGeoface call = some out) :
    WithinBounds g out call := by
  have hifnt : ∀ entry ∈ v.ifnt, entry.hopC.toNat ≤ 8 := by
    intro entry hentry
    obtain ⟨k, q, -, hreg⟩ := h.ifnt entry hentry
    have := hreg.le
    omega
  cases call with
  | ifntMiss interest =>
    cases hsent
    exact ⟨rfl, rfl⟩
  | ifntHit ifntEntry interest =>
    obtain ⟨hne, -, hpay, hhop, -⟩ := doAfterIfntHit_eq_some hsent
    exact ⟨hpay, congrArg UInt8.toNat hhop, toNat_pos hne, hifnt _ hdrawn.1⟩
  | dfntHit dfntEntry ifntEntries data =>
    obtain ⟨hne, -, hpay, hhop⟩ := doAfterDfntHit_eq_some hsent
    rw [← hhop] at hne
    exact ⟨hpay, toNat_pos hne, hhop ▸ h.dfnt _ hdrawn.1.1⟩
  | dfntMiss data ifntEntries isProducer =>
    cases hsent
    obtain ⟨-, entry, hentry, hfound⟩ :=
      getLongestJorney_spec g.pastTheEnd hrec
    have hmin : (getLongestJorney g.pastTheEnd ifntEntries).1.toNat ≤ 8 := by
      rw [hfound]
      exact hifnt entry (hdrawn hentry)
    exact ⟨rfl, hmin, toNat_maxHops_sub (by omega)⟩

theorem BoundsAt.handed {net : Network ι} {g : Geometry} {v' : ValForwarder}
    (h : net.BoundsAt g v source predecessor) (htraced : v.Traced)
    (hdefined : ∀ call ∈ v'.calls, HasRecipient call.call) (hhanded : Handed g v v') :
    net.BoundsAt g v' source (fun p => if p < v.pending.nextPtr then predecessor p
      else (relayedEntry v' p).bind source) := by
  -- Old calls keep their predecessors: their objects are below `nextPtr`.
  have hlinked : ∀ call ∈ v.calls, ∀ entry i p, call.call = .ifntHit entry i →
      call.created = some p → ∃ k q,
        (if p < v.pending.nextPtr then predecessor p else (relayedEntry v' p).bind source) =
          some (k, q) ∧ net.Registered k q i.nonce (entry.hopC.toNat + 1) := by
    intro call hcall entry i p hhit hcreated
    rw [if_pos (htraced.created call hcall p hcreated).1]
    exact h.linked call hcall entry i p hhit hcreated
  cases hhanded with
  | quiet _ hifnt hdfnt hcalls =>
    exact ⟨fun entry hentry => h.ifnt entry (hifnt hentry),
      fun entry hentry => h.dfnt entry (hdfnt hentry), hcalls ▸ h.calls, hcalls ▸ hlinked⟩
  | called u inGeoface call hdrawn hifnt hdfnt hcalls hptr =>
    have hnew : (u.strategy g inGeoface call).calls = v.calls ++
        [⟨call, u.sentBy g inGeoface call,
          (register u.pending (u.sentBy g inGeoface call)).2⟩] := by
      rw [← hcalls]
      rfl
    have hrec : HasRecipient call := hdefined _ (hnew ▸ mem_append_right _ (mem_singleton.mpr rfl))
    refine ⟨fun entry hentry => h.ifnt entry (hifnt hentry),
      fun entry hentry => h.dfnt entry (hdfnt hentry), ?_, ?_⟩
    · intro c hc out hout
      rw [hnew] at hc
      rcases mem_append.mp hc with hc | hc
      · exact h.calls c hc out hout
      · obtain rfl := mem_singleton.mp hc
        exact h.withinBounds hdrawn hrec hout
    · intro c hc entry i p hhit hcreated
      rw [hnew] at hc
      rcases mem_append.mp hc with hc | hc
      · exact hlinked c hc entry i p hhit hcreated
      · obtain rfl := mem_singleton.mp hc
        obtain rfl : call = .ifntHit entry i := hhit
        -- The object is the next one of `u`, and so is new.
        have hp : p = v.pending.nextPtr := (register_created hcreated).trans hptr
        rw [if_neg (by omega), relayedEntry_strategy hcreated, Option.bind_some]
        obtain ⟨k, q, hsource, hreg⟩ := h.ifnt entry hdrawn.1
        exact ⟨k, q, hsource, hdrawn.2 ▸ hreg⟩

/-! ### Runs -/

variable {g : ι → Geometry} {net : Network ι}

theorem Init.bounds (h : net.Init) : Bounds g net := by
  intro node
  obtain ⟨faces, mobility, face, -, hnode⟩ := h.1 node
  rw [hnode]
  constructor <;> intro _ hmem <;> cases hmem

section Runs

variable [DecidableEq ι]

/-- Calls stay recorded, so a network that is still defined has always been. -/
theorem Defined.of_next {e : Event ι} (hguard : net.guard e) (h : (net.next g e).Defined) :
    net.Defined := by
  intro node call hcall
  refine h node call ?_
  rw [nodes_next]
  by_cases hnode : node = e.node
  · rw [hnode, update_self]
    rw [hnode] at hcall
    cases e with
    | hear n face sender p valP =>
      have hrec := received (net.nodes n) face valP
      show call ∈ ((net.nodes n).onReceivedValPacket face valP).1.calls
      generalize ((net.nodes n).onReceivedValPacket face valP).1 = v' at hrec
      cases hrec <;> exact hcall
    | act n e => exact (handed (g n) (net.nodes n) hguard.1).calls_subset hcall
  · rwa [update_of_ne hnode]

/-- **The step lemma.** -/
theorem Bounds.next (hreach : (system g).Reachable net) (h : Bounds g net) {e : Event ι}
    (hguard : net.guard e) (hdefined : (net.next g e).Defined) : Bounds g (net.next g e) := by
  have htraced : ∀ node, (net.nodes node).Traced := fun node =>
    traced_of_reachable (reachable_node hreach node)
  have hgrows := grows_next hreach hguard
  intro node
  cases e with
  | hear n face sender p valP =>
    show (net.next g (.hear n face sender p valP)).BoundsAt (g node)
      (update net.nodes n _ node) (update net.source n _ node)
      (net.predecessor node)
    by_cases hnode : node = n
    · subst hnode
      have hnext := (h node).received (fun i => h.interest (htraced sender) hguard.1)
        (fun d => h.data (htraced sender) hguard.1)
        (received (net.nodes node) face valP)
      rw [update_self, update_self]
      exact hnext.grows hgrows
    · rw [update_of_ne hnode, update_of_ne hnode]
      exact (h node).grows hgrows
  | act n e =>
    show (net.next g (.act n e)).BoundsAt (g node) (update net.nodes n _ node)
      (net.source node) (update net.predecessor n _ node)
    by_cases hnode : node = n
    · subst hnode
      have hcalls : ∀ call ∈ ((net.nodes node).next (g node) e).calls,
          HasRecipient call.call := by
        intro call hcall
        refine hdefined node call ?_
        rwa [nodes_next, Event.node, update_self]
      have hnext := (h node).handed (htraced node) hcalls
        (handed (g node) (net.nodes node) hguard.1)
      rw [update_self, update_self]
      exact hnext.grows hgrows
    · rw [update_of_ne hnode, update_of_ne hnode]
      exact (h node).grows hgrows

theorem bounds_of_reachable (hreach : (system g).Reachable net) (hdefined : net.Defined) :
    Bounds g net :=
  hreach.induction (I := fun net => net.Defined → Bounds g net)
    (fun _ hinit _ => hinit.bounds)
    (fun _ _ hreach hbounds hguard hdefined =>
      (hbounds (hdefined.of_next hguard)).next hreach hguard hdefined) hdefined

end Runs

/-! ### Chains -/

/-- The senders of one Interest, each having heard the one before. -/
inductive Chain (net : Network ι) : List (ι × ℕ) → Prop
  | origin (node : ι) (p : ℕ) (call : Call) (interest : Interest)
      (hcall : call ∈ (net.nodes node).calls) (hmiss : call.call = .ifntMiss interest)
      (hcreated : call.created = some p) : Chain net [(node, p)]
  | relay (chain : List (ι × ℕ)) (k : ι) (q : ℕ) (node : ι) (p : ℕ) (call : Call)
      (entry : Ifnt.Entry) (interest : Interest) (hchain : Chain net (chain ++ [(k, q)]))
      (hcall : call ∈ (net.nodes node).calls) (hhit : call.call = .ifntHit entry interest)
      (hcreated : call.created = some p) (hpred : net.predecessor node p = some (k, q)) :
      Chain net (chain ++ [(k, q)] ++ [(node, p)])

/-- What a call has registered. -/
theorem Bounds.registered (h : Bounds g net) (htraced : (net.nodes node).Traced) {call : Call}
    (hcall : call ∈ (net.nodes node).calls) (hcreated : call.created = some p)
    (hinterest : ∀ out, WithinBounds (g node) out call.call →
      out.valPkt.payload = .interest i) :
    ∃ out, WithinBounds (g node) out call.call ∧
      net.Registered node p i.nonce out.valPkt.hopC.toNat := by
  obtain ⟨hlt, out, hsent, hpkt⟩ := htraced.created call hcall p hcreated
  have hwithin := (h node).calls call hcall out hsent
  have hpay := hinterest out hwithin
  obtain ⟨hpos, hle⟩ := hwithin.interest hpay
  exact ⟨out, hwithin, hlt, ⟨i, hpkt ▸ hpay, rfl⟩, hpkt ▸ rfl, hpos, hle⟩

section

variable (htraced : ∀ node, (net.nodes node).Traced)
include htraced

/-- The sender at place `n` of a chain has used the hop count `9 - n`. -/
theorem Chain.registered (h : Bounds g net) {chain : List (ι × ℕ)} (hchain : net.Chain chain) :
    ∃ nonce, ∀ n node p, chain[n]? = some (node, p) →
      net.Registered node p nonce (9 - n) := by
  induction hchain with
  | origin node p call interest hcall hmiss hcreated =>
    obtain ⟨out, hwithin, hreg⟩ := h.registered (htraced node) hcall hcreated
      (i := interest) fun out hwithin => by rw [hmiss] at hwithin; exact hwithin.1
    rw [hmiss] at hwithin
    refine ⟨interest.nonce, fun n node' p' hn => ?_⟩
    obtain ⟨rfl, rfl, rfl⟩ : n = 0 ∧ node = node' ∧ p = p' := by
      cases n with
      | zero => simpa using hn
      | succ n => simp at hn
    rw [hwithin.2] at hreg
    exact hreg
  | relay chain k q node p call entry interest _ hcall hhit hcreated hpred ih =>
    obtain ⟨nonce, hprev⟩ := ih
    have hkq := hprev chain.length k q (by simp)
    obtain ⟨k', q', hpred', hreg'⟩ := (h node).linked call hcall entry interest p hhit hcreated
    obtain ⟨rfl, rfl⟩ : k = k' ∧ q = q' := by
      rw [hpred] at hpred'
      simpa using hpred'
    obtain ⟨out, hwithin, hreg⟩ := h.registered (htraced node) hcall hcreated
      (i := interest) fun out hwithin => by rw [hhit] at hwithin; exact hwithin.1
    rw [hhit] at hwithin
    -- One hop less than the predecessor, which has the nonce of the chain.
    have hhop : out.valPkt.hopC.toNat = 9 - (chain.length + 1) := by
      have := hkq.hopC_eq.symm.trans hreg'.hopC_eq
      have := hwithin.2.1
      omega
    have hnonce : interest.nonce = nonce := by
      obtain ⟨i, hi, rfl⟩ := hkq.interest
      obtain ⟨j, hj, hjn⟩ := hreg'.interest
      rw [hi] at hj
      cases hj
      exact hjn.symm
    refine ⟨nonce, fun n node' p' hn => ?_⟩
    by_cases hlast : n = chain.length + 1
    · subst hlast
      obtain ⟨rfl, rfl⟩ : node = node' ∧ p = p' := by simpa using hn
      rw [← hhop, ← hnonce]
      exact hreg
    · have hlt : n < (chain ++ [(k, q)]).length := by
        have hlen := (List.getElem?_eq_some_iff.mp hn).1
        simp only [length_append, length_singleton] at hlen ⊢
        omega
      rw [getElem?_append_left hlt] at hn
      exact hprev n node' p' hn

theorem Chain.length_le (h : Bounds g net)
    {chain : List (ι × ℕ)} (hchain : net.Chain chain) : chain.length ≤ 9 := by
  obtain ⟨nonce, hall⟩ := hchain.registered htraced h
  by_contra hlong
  have hlt : 9 < chain.length := by omega
  have hpos := (hall 9 _ _ (getElem?_eq_getElem hlt)).pos
  omega

/-- Every registered Interest is the end of a chain. -/
theorem exists_chain (h : Bounds g net)
    (hreg : net.Registered node p nonce hopC) : ∃ chain, net.Chain (chain ++ [(node, p)]) := by
  -- The predecessor has one hop more, and no Interest has more than nine.
  induction hn : 9 - hopC using Nat.strongRecOn generalizing node p nonce hopC with
  | ind n ih =>
    obtain ⟨call, hcall, hcreated⟩ := (htraced node).complete p hreg.allocated
    obtain ⟨-, out, hsent, hpkt⟩ := (htraced node).created call hcall p hcreated
    have hwithin := (h node).calls call hcall out hsent
    obtain ⟨i, hpay, -⟩ := hreg.interest
    have hhop := hreg.hopC_eq
    rw [hpkt] at hpay hhop
    cases hkind : call.call with
    | ifntMiss interest => exact ⟨[], .origin node p call interest hcall hkind hcreated⟩
    | ifntHit entry interest =>
      rw [hkind] at hwithin
      obtain ⟨-, hout, -, hle⟩ := hwithin
      obtain ⟨k, q, hpred, hreg'⟩ :=
        (h node).linked call hcall entry interest p hkind hcreated
      obtain ⟨chain, hchain⟩ := ih (9 - (entry.hopC.toNat + 1)) (by omega) hreg' rfl
      exact ⟨chain ++ [(k, q)],
        .relay chain k q node p call entry interest hchain hcall hkind hcreated hpred⟩
    | dfntHit dfntEntry ifntEntries data | dfntMiss data ifntEntries isProducer =>
      rw [hkind] at hwithin
      rw [hwithin.1] at hpay
      cases hpay

end

/-! ### The bounds -/

theorem sent_hopC (htraced : (net.nodes node).Traced) (hreg : net.Registered node p nonce hopC)
    (hsent : net.Sent node p valP) :
    valP.hopC.toNat = hopC ∧ ∃ i, valP.payload = .interest i ∧ i.nonce = nonce := by
  obtain ⟨outFaceId, hlog⟩ := hsent
  obtain ⟨-, rfl⟩ := htraced.accounted.log p valP outFaceId hlog
  exact ⟨hreg.hopC_eq, hreg.interest⟩

/-- Hop counts in every run of every network, up to the first reply without a
recipient. -/
theorem hops_bounded [DecidableEq ι] (g : ι → Geometry) (net : Network ι)
    (hreach : (system g).Reachable net) (hdefined : net.Defined) :
    -- On the air.
    (∀ node p valP, net.Sent node p valP →
      (∀ i, valP.payload = .interest i → 1 ≤ valP.hopC.toNat ∧ valP.hopC.toNat ≤ 9) ∧
      ∀ d, valP.payload = .data d → 1 ≤ valP.hopC.toNat ∧ valP.hopC.toNat ≤ 10) ∧
    -- The entries that can be made of what is on the air.
    (∀ node p valP face, net.Sent node p valP →
      (∀ i, valP.payload = .interest i →
        (Ifnt.Entry.make valP.valHeader i face).hopC.toNat + 1 = valP.hopC.toNat) ∧
      ∀ d, valP.payload = .data d →
        (Dfnt.Entry.make valP.valHeader d face).hopC.toNat + 1 = valP.hopC.toNat) ∧
    -- Replies.
    (∀ node, ∀ call ∈ (net.nodes node).calls, ∀ data ifntEntries isProducer out,
      call.call = .dfntMiss data ifntEntries isProducer → call.sent = some out →
      (ValForwarder.getLongestJorney (g node).pastTheEnd ifntEntries).1.toNat ≤ 9 ∧
        out.valPkt.hopC.toNat =
          9 - (ValForwarder.getLongestJorney (g node).pastTheEnd ifntEntries).1.toNat + 1) ∧
    -- Chains: the `n`-th sender, counted from zero, uses `10 - (n + 1)`.
    (∀ chain, net.Chain chain → chain.length ≤ 9 ∧
      ∃ nonce, ∀ n node p, chain[n]? = some (node, p) → ∀ valP, net.Sent node p valP →
        valP.hopC.toNat = 10 - (n + 1) ∧
          ∃ i, valP.payload = .interest i ∧ i.nonce = nonce) ∧
    ∀ node p valP i, net.Sent node p valP → valP.payload = .interest i →
      ∃ chain, net.Chain (chain ++ [(node, p)]) := by
  have htraced : ∀ node, (net.nodes node).Traced := fun node =>
    ValForwarder.traced_of_reachable (reachable_node hreach node)
  have hbounds := bounds_of_reachable hreach hdefined
  refine ⟨?_, ?_, ?_, ?_, ?_⟩
  · intro node p valP hsent
    refine ⟨fun i hpay => ?_, fun d hpay => hbounds.data (htraced node) hsent hpay⟩
    have hreg := hbounds.interest (htraced node) hsent hpay
    exact ⟨hreg.pos, hreg.le⟩
  · intro node p valP face hsent
    refine ⟨fun i hpay => ?_, fun d hpay => ?_⟩
    · exact toNat_make_ifnt (hbounds.interest (htraced node) hsent hpay) face
    · exact toNat_make_dfnt (hbounds.data (htraced node) hsent hpay).1 d face
  · intro node call hcall data ifntEntries isProducer out hmiss hsent
    have hwithin := (hbounds node).calls call hcall out hsent
    rw [hmiss] at hwithin
    obtain ⟨-, hmin, hhop⟩ := hwithin
    omega
  · intro chain hchain
    obtain ⟨nonce, hall⟩ := hchain.registered htraced hbounds
    refine ⟨hchain.length_le htraced hbounds, nonce, fun n node p hn valP hsent => ?_⟩
    obtain ⟨hhop, hinterest⟩ := sent_hopC (htraced node) (hall n node p hn) hsent
    exact ⟨by omega, hinterest⟩
  · intro node p valP i hsent hpay
    exact exists_chain htraced hbounds (hbounds.interest (htraced node) hsent hpay)

/-- Two nodes. The first asks for `/a/1` and sends the Interest, the second
hears it and relays it. -/
def twoHops : List (Event Bool) :=
  [.act false (.interestFromNfd 256 ValForwarder.sampleInterest),
    .act false (.fire 0),
    .hear true 257 false 0
      (ValForwarder.fresh.doAfterIfntMiss 256 ValForwarder.sampleInterest).valPkt,
    .act true (.interestFromNfd 256 ValForwarder.sampleInterest)]

def afterTwoHops : Network Bool :=
  twoHops.foldl (next fun _ => ValForwarder.flatGeometry)
    ⟨fun _ => ValForwarder.fresh, fun _ _ => none, fun _ _ => none⟩

theorem afterTwoHops_reachable : (system fun _ : Bool => flatGeometry).Reachable afterTwoHops := by
  have hstart : (system fun _ : Bool => flatGeometry).Reachable
      ⟨fun _ => fresh, fun _ _ => none, fun _ _ => none⟩ :=
    .of_init ⟨fun _ => ⟨_, _, netFace, rfl, rfl⟩, fun _ _ => rfl, fun _ _ => rfl⟩
  refine hstart.foldl (.cons ?_ (.cons ?_ (.cons ?_ (.cons ?_ (.nil _)))))
  · exact And.intro rfl trivial
  · exact And.intro rfl ⟨⟨.forwarding, 0, 257, 0⟩, EventQueue.callback?_eq_some.mp rfl⟩
  · exact And.intro ⟨257, mem_singleton.mpr rfl⟩ (mem_singleton.mpr rfl)
  · exact And.intro rfl trivial

theorem afterTwoHops_calls :
    (∃ sent, (afterTwoHops.nodes false).calls =
      [⟨.ifntMiss sampleInterest, sent, some 0⟩]) ∧
    (∃ entry sent, (afterTwoHops.nodes true).calls =
      [⟨.ifntHit entry sampleInterest, sent, some 0⟩]) ∧
    afterTwoHops.predecessor true 0 = some (false, 0) :=
  ⟨⟨_, rfl⟩, ⟨_, _, rfl⟩, rfl⟩

theorem hops_bounded_afterTwoHops :
    (system fun _ : Bool => ValForwarder.flatGeometry).Reachable afterTwoHops ∧
      afterTwoHops.Defined ∧ afterTwoHops.Chain [(false, 0), (true, 0)] ∧
      ∀ valP, afterTwoHops.Sent false 0 valP → valP.hopC.toNat = 10 - 1 := by
  obtain ⟨⟨sent, hfalse⟩, ⟨entry, sent', htrue⟩, hpred⟩ := afterTwoHops_calls
  have hdefined : afterTwoHops.Defined := by
    intro node call hcall
    cases node with
    | false =>
        rw [hfalse, List.mem_singleton] at hcall
        subst hcall
        trivial
    | true =>
        rw [htrue, List.mem_singleton] at hcall
        subst hcall
        trivial
  have horigin : afterTwoHops.Chain [(false, 0)] :=
    .origin false 0 _ _ (hfalse ▸ List.mem_singleton.mpr rfl) rfl rfl
  have hchain : afterTwoHops.Chain [(false, 0), (true, 0)] :=
    .relay [] false 0 true 0 _ _ _ horigin (htrue ▸ List.mem_singleton.mpr rfl) rfl rfl hpred
  obtain ⟨-, nonce, hall⟩ :=
    (hops_bounded _ afterTwoHops afterTwoHops_reachable hdefined).2.2.2.1 _ hchain
  exact ⟨afterTwoHops_reachable, hdefined, hchain,
    fun valP hvalP => (hall 0 false 0 rfl valP hvalP).1⟩

end Network

end ValProofs
